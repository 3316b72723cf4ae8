import WebServer.DemoServer

/-!
# Whether an event comes back to its context

An event of the loop's own registration carries the descriptor of its
connection, and the fresh context that is made for it is the right one as long as
nothing has been read. An event which a task has armed carries the address of a
context instead, and the loop takes the low half of this address for a descriptor.
So such an event is harmless only where that half happens to be the descriptor
and nothing has been read yet.

As long as the loop takes no other events, every connection has at most one event
or task at a time, and the task alone touches it.
-/
namespace WebServer.ContextPerEvent
open RequestParsing RequestSplitting Response Interaction TransitionSystem EventTags DemoServer
open Contexts hiding ConnectionContext
open Server (ConnId)
open Handler (ReadResult)
open ResponseWriting (WriteResult)

/-- The response to a request of which these bytes were read in one piece. -/
def respond (received : Bytes) : Bytes :=
  buildResponse (HttpRequest.empty.parse (cString received)).2

/-- The context has the connection's descriptor and holds all that was read from it. -/
def Right (e : Handling) : Prop :=
  ∃ ctx, e.ctx = some ctx ∧ ctx.fd = e.conn.fd ∧ ctx.buffer.take ctx.bytesRead = e.conn.received

/-- An event that the loop itself has armed, or one that carries the descriptor by
accident before anything was read. -/
def Harmless (v : Conn) : Source → Prop
  | .add => True
  | .mod place => place.setWidth 32 = v.fd ∧ v.received = []

def OnlyHarmless : Discipline State Action
  | s, .dispatch c registration _ => Harmless (s.conns c) registration.source
  | _, _ => True

/-! ## A task in charge of its connection -/

/-- The context of a task and the connection it stems from. -/
structure Charge where
  ctx : ConnectionContext
  conn : Conn

namespace Charge
variable (q : Charge)

def perform (place : Address) (o : Op) (r : o.Res) : Charge :=
  ⟨q.ctx.perform o r,q.conn.perform place o r⟩

/-- The connection is open and belongs to the task alone. -/
structure Held : Prop where
  isOpen : q.conn.isOpen = true
  armed : q.conn.armed = none
  fd : q.ctx.fd = q.conn.fd

/-- What an operation needs. The one read of a task finds nothing read before it. -/
def Fits (size : ℕ) : Op → Prop
  | .delete => q.conn.armed = none
  | .read => q.Held ∧ q.conn.received = [] ∧ q.conn.responses = [] ∧
      q.ctx = .new size q.conn.fd
  | .write response => q.Held ∧ response = respond q.conn.received
  | .epollMod => q.Held ∧ q.conn.responses = []
  | _ => q.Held

end Charge

/-- The operations after which the task still holds its connection. -/
def keeps : (o : Op) → o.Res → Bool
  | .close, _ => false
  | .epollMod, ok => !ok
  | _, _ => true

/-- Every operation on every path of the code fits. -/
abbrev Fitting (size : ℕ) (place : Address) (code : Code) (q : Charge) : Prop :=
  code.Within (fun q => q.ctx.Allows size) (fun q => q.Fits size) (fun q => q.perform place) q

section
variable {size : ℕ} {listenFd : CInt} {place : Address} {q : Charge}

theorem Charge.Held.perform (h : q.Held) (place : Address) {o : Op} {r : o.Res}
    (hr : keeps o r = true) :
    (q.perform place o r).Held := by
  obtain ⟨hopen,harmed,hfd⟩ := h
  cases o with
  | read => cases r <;> exact ⟨hopen,harmed,hfd⟩
  | epollDel => exact ⟨hopen,rfl,hfd⟩
  | epollMod =>
      cases r with
      | true => cases hr
      | false => exact ⟨hopen,harmed,hfd⟩
  | close => cases hr
  | _ => exact ⟨hopen,harmed,hfd⟩

theorem fitting_leave (h : q.conn.armed = none) : Fitting size place leave q :=
  Program.within_op h fun _ _ => trivial

theorem fitting_should_close (h : q.Held) :
    Fitting size place (conclude true false) q := by
  refine Program.within_op h fun _ _ => ?_
  have h : (q.perform place .epollDel ()).Held := h.perform place rfl
  exact Program.within_op h fun _ _ => fitting_leave rfl

theorem fitting_should_read (h : q.Held) (hresponses : q.conn.responses = []) :
    Fitting size place (conclude false true) q := by
  refine Program.within_op ⟨h,hresponses⟩ fun ok _ => ?_
  cases ok with
  | true => exact trivial
  | false => exact fitting_leave h.armed

/-- The response is the one to all bytes of the connection, since the read was the first. -/
theorem fitting_receive (hsize : 0 < size) (h : q.Held) (hreceived : q.conn.received = [])
    (hresponses : q.conn.responses = []) (hctx : q.ctx = .new size q.conn.fd) (bytes : Bytes) :
    Fitting size place (receive size bytes) (q.perform place .read (.data bytes)) := by
  have hfresh : []++0::List.replicate (size-1) 0 = List.replicate size (0 : UInt8) :=
    (cleared_terminated hsize).symm
  obtain ⟨rest,hstore⟩ := store_terminated [] (List.replicate (size-1) 0) bytes
  rw [hfresh] at hstore
  have hbuffer : store (store (List.replicate size 0) 0 bytes) (0+bytes.length) [0] =
      bytes++0::rest := hstore
  have h : (q.perform place .read (.data bytes)).Held := h.perform place rfl
  refine Program.within_op h fun _ _ => ?_
  have h := h.perform place (o := .advance bytes.length) (r := ()) rfl
  refine Program.within_op h fun _ _ => ?_
  have h := h.perform place (o := .terminate) (r := ()) rfl
  refine Program.within_op h fun complete _ => ?_
  have h := h.perform place (o := .parse) (r := complete) rfl
  cases complete with
  | true =>
      refine Program.within_op h fun request hrequest => ?_
      have h := h.perform place (o := .loadRequest) (r := request) rfl
      have hrequest : request = (q.ctx.request.parse (cString (store
          (store q.ctx.buffer q.ctx.bytesRead bytes) (q.ctx.bytesRead+bytes.length) [0]))).2 :=
        hrequest
      have hresponse : buildResponse request = respond (q.conn.received++bytes) := by
        rw [hrequest,hctx,hreceived,List.nil_append]
        simp only [DemoServer.ConnectionContext.new,hbuffer,cString_terminated]
        rfl
      refine Program.within_op ⟨h,hresponse⟩ fun result _ => ?_
      exact fitting_should_close (h.perform place rfl)
  | false =>
      refine Program.within_op h fun n _ => ?_
      have h := h.perform place (o := .loadBytesRead) (r := n) rfl
      by_cases hfull : size-1 ≤ n
      · simpa only [if_pos hfull] using fitting_should_close h
      · simpa only [if_neg hfull] using fitting_should_read h hresponses

/-- The task of a context that was made for a connection of which nothing was read. -/
theorem fitting_handleClientTask (hsize : 0 < size) (h : q.Held)
    (hreceived : q.conn.received = []) (hresponses : q.conn.responses = [])
    (hctx : q.ctx = .new size q.conn.fd) : Fitting size place (handleClientTask size) q := by
  refine Program.within_op ⟨h,hreceived,hresponses,hctx⟩ fun n _ => ?_
  have hheld : (q.perform place .read n).Held := h.perform place rfl
  cases n with
  | error e =>
      cases e with
      | again => exact fitting_should_read hheld hresponses
      | badf => exact fitting_leave h.armed
      | other => exact fitting_should_close hheld
  | data bytes =>
      cases bytes with
      | nil => exact fitting_should_close hheld
      | cons b bs => exact fitting_receive hsize h hreceived hresponses hctx (b::bs)

end

/-! ## Runs of the server -/

/-- What a registration of a connection carries. The loop registers a connection
before anything is read from it. -/
inductive Registered (v : Conn) : Registration → Prop
  | add {d : EpollData} : d.fd = v.fd → v.received = [] → Registered v ⟨.add,d⟩
  | mod (place : Address) : Registered v ⟨.mod place,EpollData.zero.setPtr place⟩

/-- A connection that waits for its event, armed or on the way. -/
structure Waiting (v : Conn) (registration : Registration) : Prop where
  isOpen : v.isOpen = true
  responses : v.responses = []
  registered : Registered v registration

structure Settled (listenFd : CInt) (v : Conn) : Prop where
  listen : v.isOpen = true → v.fd ≠ listenFd
  waiting : ∀ registration, v.armed = some registration → Waiting v registration
  answered : ∀ response ∈ v.responses, response = respond v.received

/-- What a piece of work finds at its connection. -/
def Suits (size : ℕ) (v : Conn) : Work → Prop
  | .event registration => v.armed = none ∧ Waiting v registration
  | .task place ctx code => v.armed = none ∧ Fitting size place code ⟨ctx,v⟩

structure Sound (size : ℕ) (listenFd : CInt) (s : State) : Prop where
  unused : ∀ c, s.accepted ≤ c → s.conns c = .none
  settled : ∀ c, Settled listenFd (s.conns c)
  distinct : ∀ c c', (s.conns c).isOpen = true → (s.conns c').isOpen = true →
    (s.conns c).fd = (s.conns c').fd → c = c'
  nodup : (s.flights.map Flight.conn).Nodup
  known : ∀ f ∈ s.flights, f.conn < s.accepted
  suits : ∀ f ∈ s.flights, Suits size (s.conns f.conn) f.work
  handled : ∀ e ∈ s.handled, Right e

section
variable {size : ℕ} {listenFd : CInt} {s t : State} {c : ConnId}

theorem sound_initial (size : ℕ) (listenFd : CInt) : Sound size listenFd (.initial listenFd) where
  unused _ _ := rfl
  settled _ := {
    listen := fun h => by cases h
    waiting := fun _ h => by cases h
    answered := fun _ h => by cases h }
  distinct _ _ h := by cases h
  nodup := Multiset.nodup_zero
  known _ h := by cases h
  suits _ h := by cases h
  handled _ h := by cases h

theorem mem_replaced {next : Option Work} {rest : Multiset Flight} {f : Flight} :
    f ∈ replaced c next rest ↔ (f.conn = c ∧ next = some f.work) ∨ f ∈ rest := by
  cases next with
  | none => simp [replaced]
  | some work =>
      rw [replaced,Multiset.mem_cons]
      refine or_congr_left ⟨?_,?_⟩
      · rintro rfl
        exact ⟨rfl,rfl⟩
      · rintro ⟨rfl,hwork⟩
        cases hwork
        rfl

theorem nodup_replaced {next : Option Work} {rest : Multiset Flight}
    (hrest : (rest.map Flight.conn).Nodup) (hc : ∀ f ∈ rest, f.conn ≠ c) :
    ((replaced c next rest).map Flight.conn).Nodup := by
  cases next with
  | none => exact hrest
  | some work =>
      rw [replaced,Multiset.map_cons,Multiset.nodup_cons]
      refine ⟨fun hmem => ?_,hrest⟩
      obtain ⟨f,hf,hfc⟩ := Multiset.mem_map.mp hmem
      exact hc f hf hfc

/-- One connection and its flight change, and all others stay as they are. -/
theorem Sound.replace (h : Sound size listenFd s) (c : ConnId) (next : Option Work)
    (rest : Multiset Flight) (hsame : ∀ c' ≠ c, t.conns c' = s.conns c')
    (hflights : t.flights = replaced c next rest) (hsub : rest ≤ s.flights)
    (hother : ∀ f ∈ rest, f.conn ≠ c) (hle : s.accepted ≤ t.accepted) (hc : c < t.accepted)
    (hv : Settled listenFd (t.conns c))
    (hdistinct : (t.conns c).isOpen = true →
      ∀ c' ≠ c, (s.conns c').isOpen = true → (s.conns c').fd ≠ (t.conns c).fd)
    (hnext : ∀ work, next = some work → Suits size (t.conns c) work)
    (hhandled : ∀ e ∈ t.handled, Right e) : Sound size listenFd t := by
  constructor
  · intro c' hc'
    have hne : c' ≠ c := (hc.trans_le hc').ne'
    exact (hsame c' hne).trans (h.unused c' (hle.trans hc'))
  · intro c'
    by_cases hne : c' = c
    · exact hne ▸ hv
    · rw [hsame c' hne]
      exact h.settled c'
  · intro c₁ c₂ h₁ h₂ hfd
    by_contra hne
    by_cases hc₁ : c₁ = c
    · subst hc₁
      have hc₂ : c₂ ≠ c₁ := Ne.symm hne
      rw [hsame c₂ hc₂] at h₂ hfd
      exact hdistinct h₁ c₂ hc₂ h₂ hfd.symm
    · rw [hsame c₁ hc₁] at h₁ hfd
      by_cases hc₂ : c₂ = c
      · subst hc₂
        exact hdistinct h₂ c₁ hc₁ h₁ hfd
      · rw [hsame c₂ hc₂] at h₂ hfd
        exact hne (h.distinct c₁ c₂ h₁ h₂ hfd)
  · rw [hflights]
    exact nodup_replaced (Multiset.nodup_of_le (Multiset.map_le_map hsub) h.nodup) hother
  · rw [hflights]
    intro f hf
    rcases mem_replaced.mp hf with ⟨rfl,-⟩ | hf
    · exact hc
    · exact (h.known f (Multiset.mem_of_le hsub hf)).trans_le hle
  · rw [hflights]
    intro f hf
    rcases mem_replaced.mp hf with ⟨rfl,hwork⟩ | hf
    · exact hnext f.work hwork
    · rw [hsame f.conn (hother f hf)]
      exact h.suits f (Multiset.mem_of_le hsub hf)
  · exact hhandled

/-- The flight which a step takes, and the others. -/
theorem Sound.split (h : Sound size listenFd s) {work : Work} {rest : Multiset Flight}
    (hflights : s.flights = ⟨c,work⟩ ::ₘ rest) : rest ≤ s.flights ∧
      (∀ f ∈ rest, f.conn ≠ c) ∧ c < s.accepted ∧ Suits size (s.conns c) work := by
  have hmem : (⟨c,work⟩ : Flight) ∈ s.flights := hflights ▸ Multiset.mem_cons_self _ _
  refine ⟨hflights ▸ Multiset.le_cons_self _ _,fun f hf hfc => ?_,h.known _ hmem,h.suits _ hmem⟩
  have hnodup := h.nodup
  rw [hflights,Multiset.map_cons,Multiset.nodup_cons] at hnodup
  exact hnodup.1 (Multiset.mem_map.mpr ⟨f,hf,hfc⟩)

theorem Sound.accept (h : Sound size listenFd s) {fd : CInt} {ok : Bool} (hfd : fd ≠ listenFd)
    (hnew : ∀ c, (s.conns c).isOpen = true → (s.conns c).fd ≠ fd) :
    Sound size listenFd (s.accept fd ok) := by
  have hself : (s.accept fd ok).conns s.accepted =
      ⟨fd,true,[],[],if ok then some ⟨.add,s.ev.setFd fd⟩ else none⟩ := Function.update_self ..
  apply h.replace s.accepted none s.flights
  · exact fun c' hne => Function.update_of_ne hne _ s.conns
  · rfl
  · exact le_rfl
  · exact fun f hf => (h.known f hf).ne
  · exact Nat.le_succ _
  · exact Nat.lt_succ_self _
  · rw [hself]
    constructor
    · exact fun _ => hfd
    · intro registration hregistration
      cases ok with
      | true =>
          cases hregistration
          exact ⟨rfl,rfl,.add (EpollData.fd_setFd _ fd) rfl⟩
      | false => cases hregistration
    · intro response hresponse
      cases hresponse
  · rw [hself]
    exact fun _ c' _ hopen => hnew c' hopen
  · intro work hwork
    cases hwork
  · exact h.handled

theorem Sound.deliver (h : Sound size listenFd s) {registration : Registration}
    (harmed : (s.conns c).armed = some registration) :
    Sound size listenFd (s.deliver c registration) := by
  have hself : (s.deliver c registration).conns c = {s.conns c with armed := none} :=
    Function.update_self ..
  obtain ⟨hopen,hresponses,hregistered⟩ := (h.settled c).waiting registration harmed
  apply h.replace c (some (.event registration)) s.flights
  · exact fun c' hne => Function.update_of_ne hne _ s.conns
  · rfl
  · exact le_rfl
  · intro f hf hfc
    have hnone : (s.conns f.conn).armed = none := by
      have hsuits := h.suits f hf
      cases hwork : f.work with
      | event registration => exact (hwork ▸ hsuits).1
      | task place ctx code => exact (hwork ▸ hsuits).1
    rw [hfc,harmed] at hnone
    cases hnone
  · exact le_rfl
  · by_contra hc
    rw [h.unused c (Nat.not_lt.mp hc)] at hopen
    cases hopen
  · rw [hself]
    constructor
    · exact (h.settled c).listen
    · intro _ hnone
      cases hnone
    · exact (h.settled c).answered
  · rw [hself]
    exact fun _ c' hne hopen' hfd => hne (h.distinct c' c hopen' hopen hfd)
  · intro work hwork
    cases hwork
    rw [hself]
    refine ⟨rfl,hopen,hresponses,?_⟩
    cases hregistered with
    | add hfd hreceived => exact .add hfd hreceived
    | mod place => exact .mod place
  · exact h.handled

/-- A fresh context is right for a connection of which nothing was read. -/
theorem right_new_iff (v : Conn) (d : EpollData) :
    Right ⟨v,(decode listenFd d).map (.new size)⟩ ↔
      d.fd ≠ listenFd ∧ d.fd = v.fd ∧ v.received = [] := by
  by_cases hd : d.fd = listenFd
  · simp [Right,decode,hd]
  · simp [Right,decode,hd,DemoServer.ConnectionContext.new,eq_comm]

/-- What a registration carries is right exactly if it is harmless. -/
theorem right_iff_harmless (size : ℕ) {v : Conn} {registration : Registration}
    (h : Registered v registration) (hlisten : v.fd ≠ listenFd) :
    Right ⟨v,(decode listenFd registration.data).map (.new size)⟩ ↔
      Harmless v registration.source := by
  rw [right_new_iff]
  cases h with
  | add hfd hreceived => simp [Harmless,hfd,hreceived,hlisten]
  | mod place =>
      rw [EpollData.fd_setPtr,Harmless,and_iff_right_iff_imp]
      rintro ⟨hfd,-⟩
      rwa [hfd]

theorem Sound.dispatch (hsize : 0 < size) (h : Sound size listenFd s)
    {registration : Registration} {place : Address} {rest : Multiset Flight}
    (hflights : s.flights = ⟨c,.event registration⟩ ::ₘ rest)
    (hharmless : Harmless (s.conns c) registration.source) :
    Sound size listenFd (s.dispatch size listenFd c registration.data place rest) := by
  obtain ⟨hsub,hother,hc,harmed,hopen,hresponses,hregistered⟩ := h.split hflights
  have hlisten := (h.settled c).listen hopen
  have hright := (right_iff_harmless size hregistered hlisten).mpr hharmless
  obtain ⟨hne,hfd,hreceived⟩ := (right_new_iff _ _).mp hright
  have hdecode : decode listenFd registration.data = some (s.conns c).fd := by
    rw [decode,if_neg hne,hfd]
  apply h.replace c (some (submit size place (s.conns c).fd)) rest
  · exact fun _ _ => rfl
  · rw [State.dispatch,hdecode]
    rfl
  · exact hsub
  · exact hother
  · exact le_rfl
  · exact hc
  · exact h.settled c
  · exact fun _ c' hne hopen' hfd => hne (h.distinct c' c hopen' hopen hfd)
  · intro work hwork
    cases hwork
    exact ⟨harmed,fitting_handleClientTask hsize ⟨hopen,harmed,rfl⟩ hreceived hresponses rfl⟩
  · intro e he
    rcases List.mem_cons.mp he with rfl | he
    · exact hright
    · exact h.handled e he

theorem fd_perform (place : Address) (v : Conn) (o : Op) (r : o.Res) :
    (v.perform place o r).fd = v.fd := by
  cases o with
  | read => cases r <;> rfl
  | epollMod => cases r <;> rfl
  | _ => rfl

theorem isOpen_of_perform {place : Address} {v : Conn} {o : Op} {r : o.Res}
    (h : (v.perform place o r).isOpen = true) : v.isOpen = true := by
  cases o with
  | read => cases r <;> exact h
  | epollMod => cases r <;> exact h
  | close => cases h
  | _ => exact h

/-- An operation that fits is the last one, or its task holds the connection. -/
theorem Charge.Fits.cases {q : Charge} {o : Op} (h : q.Fits size o) :
    q.conn.armed = none ∧ (o = .delete ∨ q.Held) := by
  cases o with
  | delete => exact ⟨h,.inl rfl⟩
  | read => exact ⟨h.1.armed,.inr h.1⟩
  | write response => exact ⟨h.1.armed,.inr h.1⟩
  | epollMod => exact ⟨h.1.armed,.inr h.1⟩
  | _ => exact ⟨h.armed,.inr h⟩

theorem Settled.perform {place : Address} {q : Charge} {o : Op} {r : o.Res}
    (h : Settled listenFd q.conn) (hfits : q.Fits size o) :
    Settled listenFd (q.conn.perform place o r) := by
  constructor
  · rw [fd_perform]
    exact fun hopen => h.listen (isOpen_of_perform hopen)
  · intro registration hregistration
    obtain ⟨harmed,-⟩ := hfits.cases
    cases o with
    | read => cases r <;> cases harmed.symm.trans hregistration
    | epollMod =>
        cases r with
        | true =>
            obtain ⟨hheld,hresponses⟩ := hfits
            cases hregistration
            exact ⟨hheld.isOpen,hresponses,.mod place⟩
        | false => cases harmed.symm.trans hregistration
    | epollDel => cases hregistration
    | close => cases hregistration
    | _ => cases harmed.symm.trans hregistration
  · intro response hresponse
    cases o with
    | read =>
        obtain ⟨-,-,hresponses,-⟩ := hfits
        cases r with
        | data bytes =>
            have hresponse : response ∈ q.conn.responses := hresponse
            simp [hresponses] at hresponse
        | error e => exact h.answered response hresponse
    | write sent =>
        obtain ⟨-,hsent⟩ := hfits
        rcases List.mem_append.mp hresponse with hresponse | hresponse
        · exact h.answered response hresponse
        · exact (List.mem_singleton.mp hresponse).trans hsent
    | epollMod => cases r <;> exact h.answered response hresponse
    | _ => exact h.answered response hresponse

/-- The operations of a task reach no connection but its own. -/
theorem Sound.onFd_of_ne (h : Sound size listenFd s) {place : Address} {ctx : ConnectionContext}
    {o : Op} {r : o.Res} (hfits : (⟨ctx,s.conns c⟩ : Charge).Fits size o) {c' : ConnId}
    (hne : c' ≠ c) : s.onFd ctx.fd (fun v => v.perform place o r) c' = s.conns c' := by
  obtain ⟨-,rfl | hheld⟩ := hfits.cases
  · exact ite_self _
  · refine if_neg ?_
    rintro ⟨hopen,hfd⟩
    exact hne (h.distinct c' c hopen hheld.isOpen (hfd.trans hheld.fd))

theorem onFd_self {place : Address} {ctx : ConnectionContext} {o : Op} {r : o.Res}
    (hfits : (⟨ctx,s.conns c⟩ : Charge).Fits size o) :
    s.onFd ctx.fd (fun v => v.perform place o r) c = (s.conns c).perform place o r := by
  obtain ⟨-,rfl | hheld⟩ := hfits.cases
  · exact ite_self _
  · exact if_pos ⟨hheld.isOpen,hheld.fd.symm⟩

theorem Sound.perform (h : Sound size listenFd s) {place : Address} {ctx : ConnectionContext}
    {o : Op} {k : o.Res → Code} {r : o.Res} {rest : Multiset Flight}
    (hflights : s.flights = ⟨c,.task place ctx (.op o k)⟩ ::ₘ rest) (hr : ctx.Allows size o r) :
    Sound size listenFd (s.perform c place ctx o r (k r) rest) := by
  obtain ⟨hsub,hother,hc,-,hfitting⟩ := h.split hflights
  have hfits := hfitting.guard
  have hself : (s.perform c place ctx o r (k r) rest).conns c =
      (s.conns c).perform place o r := onFd_self hfits
  apply h.replace c (remaining place (ctx.perform o r) (k r)) rest
  · exact fun c' hne => h.onFd_of_ne hfits hne
  · rfl
  · exact hsub
  · exact hother
  · exact le_rfl
  · exact hc
  · rw [hself]
    exact (h.settled c).perform hfits
  · rw [hself,fd_perform]
    intro hopen c' hne hopen' hfd
    exact hne (h.distinct c' c hopen' (isOpen_of_perform hopen) hfd)
  · rw [hself]
    intro work hwork
    have hrest := hfitting.step hr
    generalize k r = code at hwork hrest
    cases code with
    | ret _ => cases hwork
    | op o' k' =>
        cases hwork
        exact ⟨hrest.guard.cases.1,hrest⟩
  · exact h.handled

theorem sound_of_reach (hsize : 0 < size) (h : (server size listenFd).Reach OnlyHarmless s) :
    Sound size listenFd s := by
  apply h.invariant
  · rintro s rfl
    exact sound_initial size listenFd
  · intro s a t _ hs hharmless hstep
    cases hstep with
    | accept _ hfd hnew => exact hs.accept hfd hnew
    | deliver harmed => exact hs.deliver harmed
    | dispatch hflights => exact hs.dispatch hsize hflights hharmless
    | op hflights hr => exact hs.perform hflights hr

/-- As long as the loop takes harmless events only, every event has been handled
by a task with the right context, and every response is the one to all bytes read
from its connection. The next event is handled so exactly if it is harmless. -/
theorem events_come_back_iff (hsize : 0 < size)
    (h : (server size listenFd).Reach OnlyHarmless s) :
    (∀ e ∈ s.handled, Right e) ∧
    (∀ c place ctx k, ⟨c,.task place ctx (.op .read k)⟩ ∈ s.flights →
      Right ⟨s.conns c,some ctx⟩) ∧
    (∀ c, ∀ response ∈ (s.conns c).responses, response = respond (s.conns c).received) ∧
    ∀ c registration place t, Step size listenFd s (.dispatch c registration place) t →
      ((∀ e ∈ t.handled, Right e) ↔ Harmless (s.conns c) registration.source) := by
  have hsound := sound_of_reach hsize h
  refine ⟨hsound.handled,?_,fun c => (hsound.settled c).answered,?_⟩
  · intro c place ctx k hmem
    obtain ⟨-,hfitting⟩ := hsound.suits _ hmem
    obtain ⟨hheld,hreceived,-,hctx⟩ := hfitting.guard
    have hempty : ctx.bytesRead = 0 := congrArg DemoServer.ConnectionContext.bytesRead hctx
    refine ⟨ctx,rfl,hheld.fd,?_⟩
    rw [hempty,List.take_zero,hreceived]
  · intro c registration place t hstep
    cases hstep with
    | dispatch hflights =>
        obtain ⟨-,-,-,-,hopen,-,hregistered⟩ := hsound.split hflights
        rw [← right_iff_harmless size hregistered ((hsound.settled c).listen hopen)]
        constructor
        · exact fun hall => hall _ (List.mem_cons_self ..)
        · intro hright e he
          rcases List.mem_cons.mp he with rfl | he
          · exact hright
          · exact hsound.handled e he

/-- A step of the only event there is. -/
theorem dispatch_single {registration : Registration} {place : Address}
    (h : s.flights = {⟨c,.event registration⟩}) :
    Step size listenFd s (.dispatch c registration place)
      (s.dispatch size listenFd c registration.data place 0) := .dispatch h

/-- A step of the only task there is. -/
theorem op_single {place : Address} {ctx : ConnectionContext} {o : Op} {k : o.Res → Code}
    {r : o.Res} (h : s.flights = {⟨c,.task place ctx (.op o k)⟩}) (hr : ctx.Allows size o r) :
    Step size listenFd s (.op c o r) (s.perform c place ctx o r (k r) 0) := .op h hr

end

/-- The address of a context. -/
def somewhere : Address := 0x55d0c0de0010

/-- What the loop registers for a connection on descriptor 5. -/
def firstEvent : Registration := ⟨.add,(EpollData.zero.setFd 3).setFd 5⟩

/-- The greeting arrives whole and is answered. -/
theorem events_come_back_iff_greeting : ∃ s, (server bufferSize 3).Reach OnlyHarmless s ∧
    (∀ e ∈ s.handled, Right e) ∧ s.handled.length = 1 ∧
    (s.conns 0).responses.length = 1 ∧
    ∀ response ∈ (s.conns 0).responses, response = respond greeting := by
  have h₀ : (server bufferSize 3).Reach OnlyHarmless (.initial 3) := .start rfl
  have h₁ := h₀.step (a := Action.accept 5 true) trivial
    (.accept (by decide) (by decide) (fun _ hopen => by cases hopen))
  have h₂ := h₁.step (a := Action.deliver 0) trivial (.deliver rfl)
  have h₃ := h₂.step (a := Action.dispatch 0 firstEvent somewhere) trivial (dispatch_single rfl)
  have hlen : greeting.length ≤
      (DemoServer.ConnectionContext.new bufferSize 5).room bufferSize := by
    decide
  have h₄ := h₃.step (a := Action.op 0 .read (.data greeting)) trivial (op_single rfl hlen)
  have h₅ := h₄.step (a := Action.op 0 (.advance 9) ()) trivial (op_single rfl trivial)
  have h₆ := h₅.step (a := Action.op 0 .terminate ()) trivial (op_single rfl trivial)
  have h₇ := h₆.step (a := Action.op 0 .parse true) trivial
    (op_single rfl (by change true = _; decide +kernel))
  have h₈ := h₇.step (a := Action.op 0 .loadRequest _) trivial (op_single rfl rfl)
  have h₉ := h₈.step (a := Action.op 0 (.write _) .again) trivial (op_single rfl trivial)
  obtain ⟨hhandled,-,hresponses,-⟩ := events_come_back_iff (by decide) h₉
  exact ⟨_,h₉,hhandled,rfl,rfl,hresponses 0⟩

/-- Every `EPOLL_CTL_MOD` succeeds. -/
def ModsSucceed : Discipline State Action
  | _, .op _ .epollMod ok => ok = true
  | _, _ => True

/-- `GET /` and the line end, without the blank line. -/
def cutGreeting : Bytes := greeting.take 7

/-- The first line arrives on descriptor 5, and the blank line brings back an event
from which the loop takes the descriptor `0xc0de0010`. -/
theorem not_everyEventComesBack : ¬ ∀ s, (server bufferSize 3).Reach ModsSucceed s →
    ∀ e ∈ s.handled, Right e := by
  intro hall
  have h₀ : (server bufferSize 3).Reach ModsSucceed (.initial 3) := .start rfl
  have h₁ := h₀.step (a := Action.accept 5 true) trivial
    (.accept (by decide) (by decide) (fun _ hopen => by cases hopen))
  have h₂ := h₁.step (a := Action.deliver 0) trivial (.deliver rfl)
  have h₃ := h₂.step (a := Action.dispatch 0 firstEvent somewhere) trivial (dispatch_single rfl)
  have hlen : cutGreeting.length ≤
      (DemoServer.ConnectionContext.new bufferSize 5).room bufferSize := by
    decide
  have h₄ := h₃.step (a := Action.op 0 .read (.data cutGreeting)) trivial (op_single rfl hlen)
  have h₅ := h₄.step (a := Action.op 0 (.advance 7) ()) trivial (op_single rfl trivial)
  have h₆ := h₅.step (a := Action.op 0 .terminate ()) trivial (op_single rfl trivial)
  have h₇ := h₆.step (a := Action.op 0 .parse false) trivial
    (op_single rfl (by change false = _; decide +kernel))
  have h₈ := h₇.step (a := Action.op 0 .loadBytesRead (7 : ℕ)) trivial (op_single rfl rfl)
  have h₉ := h₈.step (a := Action.op 0 .epollMod true) rfl (op_single rfl trivial)
  have h₁₀ := h₉.step (a := Action.deliver 0) trivial (.deliver rfl)
  have h₁₁ := h₁₀.step (a := Action.dispatch 0 _ (somewhere+0x2000)) trivial (dispatch_single rfl)
  obtain ⟨ctx,hctx,hfd,-⟩ := hall _ h₁₁ _ (List.mem_cons_self ..)
  cases hctx
  revert hfd
  decide +kernel

end WebServer.ContextPerEvent
