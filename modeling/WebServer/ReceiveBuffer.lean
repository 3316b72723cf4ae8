import WebServer.Handler
import WebServer.TransitionSystem

/-!
# The receive buffer

Three places reckon with the byte for the terminator: the length asked of
`read`, the position of the NUL, and the test for a full buffer. Between two
calls at least two bytes are free, so that the next call asks for at least one
byte and still has room for the terminator behind what it gets.

The control of a call is the session itself, and the guard says what every
operation needs. Nothing is assumed of the parser's answer, of the callback and of
`EPOLL_CTL_MOD`.
-/
namespace WebServer.ReceiveBuffer
open RequestParsing Contexts Interaction Handler TransitionSystem
open ThreadPool (Outcome)

/-- The session, all bytes read so far, and whether the connection is armed. -/
structure Held where
  session : Session
  received : Bytes
  armed : Bool

/-- The bytes which an operation takes from the descriptor. -/
def taken : (o : Op) → o.Res → Bytes
  | .read, .data bytes => bytes
  | _, _ => []

def rearms : (o : Op) → o.Res → Bool
  | .epollMod, ok => ok
  | _, _ => false

def Held.perform (q : Held) (o : Op) (r : o.Res) : Held where
  session := (semantics true).effect o r q.session
  received := q.received++taken o r
  armed := q.armed || rearms o r

/-- What a `read` of `n` bytes may give. It gives none at the end of the file, or
if none was asked for. -/
inductive MayGive (n : ℕ) : Bool → ReadResult → Prop
  | bytes {bytes : Bytes} : bytes ≠ [] → bytes.length ≤ n → MayGive n false (.data bytes)
  | endOfFile : MayGive n true (.data [])
  | nothing {endOfFile : Bool} : n = 0 → MayGive n endOfFile (.data [])
  | error {endOfFile : Bool} (errno : Errno) : MayGive n endOfFile (.error errno)

/-- What may be answered: by `read` whatever it may give, and by the parser, the
callback and `EPOLL_CTL_MOD` anything at all. -/
def Held.Allows (size : ℕ) (q : Held) : (o : Op) → o.Res → Prop
  | .loadClosed, r => r = q.session.closed
  | .exchangeClosed, r => r = q.session.closed
  | .loadBytesRead, r => r = q.session.bytesRead
  | .read, r => ∃ endOfFile, MayGive (q.session.room size) endOfFile r
  | _, _ => True

/-- The buffer of an armed connection: the bytes read so far, a terminator, and
room for at least one byte and its terminator. -/
structure Ready (size : ℕ) (q : Held) : Prop where
  fits : q.session.bytesRead ≤ size-2
  bytes : q.session.buffer.take q.session.bytesRead = q.received
  terminated : q.session.buffer[q.session.bytesRead]? = some 0

/-- What an operation needs. An armed connection is left alone. -/
def Held.Fits (size : ℕ) (q : Held) : Op → Prop
  | .release => True
  | .read => q.armed = false ∧ 1 ≤ q.session.room size ∧
      q.session.bytesRead+q.session.room size ≤ size
  | .terminate => q.armed = false ∧ q.session.bytesRead+1 ≤ size
  | .epollMod => q.armed = false ∧ Ready size q
  | _ => q.armed = false

/-- Every operation on every path of the code fits. -/
abbrev Fitting (size : ℕ) (c : Code) (q : Held) : Prop :=
  c.Within (Held.Allows size) (Held.Fits size) Held.perform q

section
variable {size : ℕ} {q : Held}

theorem length_of_mayGive {n : ℕ} {endOfFile : Bool} {bytes : Bytes}
    (h : MayGive n endOfFile (.data bytes)) : bytes.length ≤ n := by
  cases h with
  | bytes _ hlen => exact hlen
  | endOfFile => exact Nat.zero_le n
  | nothing _ => exact Nat.zero_le n

/-- If something was asked for, a result of 0 means the end of the file. -/
theorem endOfFile_of_mayGive {n : ℕ} {endOfFile : Bool} (hn : 1 ≤ n)
    (h : MayGive n endOfFile (.data [])) : endOfFile = true := by
  cases h with
  | bytes hb => exact (hb rfl).elim
  | endOfFile => rfl
  | nothing hz => omega

/-! ## The buffer as a list -/

theorem Ready.split (h : Ready size q) : q.received.length = q.session.bytesRead ∧
    ∃ rest, q.session.buffer = q.received++0::rest := by
  obtain ⟨hlt,hzero⟩ := List.getElem?_eq_some_iff.mp h.terminated
  constructor
  · rw [← h.bytes,List.length_take]
    omega
  · refine ⟨q.session.buffer.drop (q.session.bytesRead+1),?_⟩
    rw [← h.bytes,← hzero,← List.drop_eq_getElem_cons hlt,List.take_append_drop]

theorem ready_of_split (hlen : q.received.length = q.session.bytesRead)
    (hbuffer : ∃ rest, q.session.buffer = q.received++0::rest)
    (hfits : q.session.bytesRead ≤ size-2) : Ready size q := by
  obtain ⟨rest,hbuffer⟩ := hbuffer
  constructor
  · exact hfits
  · rw [hbuffer,← hlen,List.take_left]
  · rw [hbuffer,← hlen,List.getElem?_append_right (Nat.le_refl _)]
    simp

theorem room_eq (hsize : size < 2^31) (h : q.session.bytesRead ≤ size-2) (h2 : 2 ≤ size) :
    q.session.room size = size-1-q.session.bytesRead := by
  unfold Session.room toSize
  omega

/-- No operation that fits makes the buffer longer. -/
theorem Held.Fits.length_buffer {o : Op} {r : o.Res} (ho : q.Fits size o)
    (hr : q.Allows size o r) (h : q.session.buffer.length = size) :
    (q.perform o r).session.buffer.length = size := by
  cases o with
  | read =>
      obtain ⟨-,-,hfits⟩ := ho
      obtain ⟨endOfFile,hgive⟩ := hr
      cases r with
      | error e => exact h
      | data bytes =>
          have hlen := length_of_mayGive hgive
          exact (length_store (by omega)).trans h
  | terminate =>
      obtain ⟨-,hfits⟩ := ho
      exact (length_store (by simpa [h] using hfits)).trans h
  | _ => exact h

/-! ## Every path of the code fits -/

theorem armed_perform {o : Op} {r : o.Res} (h : q.armed = false) (hr : rearms o r = false) :
    (q.perform o r).armed = false := by
  simp [Held.perform,h,hr]

theorem perform_eq_self {o : Op} {r : o.Res}
    (hsession : (semantics true).effect o r q.session = q.session) (htaken : taken o r = [])
    (hrearms : rearms o r = false) : q.perform o r = q := by
  rw [Held.perform,hsession,htaken,hrearms,List.append_nil,Bool.or_false]

theorem fitting_leave : Fitting size leave q :=
  Program.within_op trivial fun _ _ => trivial

theorem fitting_close (h : q.armed = false) : Fitting size (.op .close fun _ => leave) q :=
  Program.within_op h fun _ _ => fitting_leave

theorem fitting_should_close (h : q.armed = false) : Fitting size (conclude true false) q := by
  refine Program.within_op h fun wasClosed _ => ?_
  cases wasClosed with
  | true => exact fitting_leave
  | false =>
      have h : (q.perform .exchangeClosed false).armed = false := armed_perform h rfl
      exact Program.within_op h fun _ _ => fitting_close (armed_perform h rfl)

theorem fitting_need_readd (h : q.armed = false) (hready : Ready size q) :
    Fitting size (conclude false true) q := by
  refine Program.within_op h fun closed _ => ?_
  cases closed with
  | true => exact fitting_leave
  | false =>
      have hq : q.perform .loadClosed false = q := perform_eq_self rfl rfl rfl
      rw [hq]
      refine Program.within_op ⟨h,hready⟩ fun ok _ => ?_
      cases ok with
      | true => exact fitting_leave
      | false =>
          have h : (q.perform .epollMod false).armed = false := armed_perform h rfl
          exact Program.within_op h fun _ _ => fitting_close (armed_perform h rfl)

/-- A fragment that was asked for is stored, terminated and parsed, whatever the
parser answers. The connection is armed again only where two bytes are left. -/
theorem fitting_receive (hsize : 2 ≤ size) (h : q.armed = false) (hready : Ready size q)
    {bytes : Bytes} (hlen : bytes.length ≤ size-1-q.session.bytesRead) :
    Fitting size (receive size bytes) (q.perform .read (.data bytes)) := by
  have hfits := hready.fits
  obtain ⟨hreceived,rest,hbuffer⟩ := hready.split
  obtain ⟨rest',hstore⟩ := store_terminated q.received rest bytes
  rw [← hbuffer,hreceived] at hstore
  have h : (q.perform .read (.data bytes)).armed = false := armed_perform h rfl
  refine Program.within_op h fun _ _ => ?_
  have h := armed_perform (o := .advance bytes.length) (r := ()) h rfl
  have hroom : q.session.bytesRead+bytes.length+1 ≤ size := by omega
  refine Program.within_op ⟨h,hroom⟩ fun _ _ => ?_
  have h := armed_perform (o := .terminate) (r := ()) h rfl
  refine Program.within_op h fun complete _ => ?_
  have h := armed_perform (o := .parse) (r := complete) h rfl
  cases complete with
  | true =>
      refine Program.within_op h fun set _ => ?_
      have h := armed_perform (o := .testOnMessage) (r := set) h rfl
      cases set with
      | true =>
          refine Program.within_op h fun outcome _ => ?_
          cases outcome with
          | returned => exact fitting_should_close (armed_perform h rfl)
          | threw => exact trivial
      | false => exact fitting_should_close h
  | false =>
      refine Program.within_op h fun n hn => ?_
      have hn : q.session.bytesRead+bytes.length = n := hn.symm
      have h := armed_perform (o := .loadBytesRead) (r := n) h rfl
      by_cases hfull : size-1 ≤ n
      · simpa only [if_pos hfull] using fitting_should_close h
      · simp only [if_neg hfull]
        apply fitting_need_readd h
        apply ready_of_split
        · simpa [Held.perform,semantics,taken] using hreceived
        · refine ⟨rest',?_⟩
          simpa [Held.perform,semantics,taken] using hstore
        · have hleft : q.session.bytesRead+bytes.length ≤ size-2 := by
            rw [hn]
            omega
          exact hleft

/-- A call on a connection that is closed or was armed. -/
theorem fitting_handleClientClient (h2 : 2 ≤ size) (hsize : size < 2^31) (h : q.armed = false)
    (hq : q.session.closed = true ∨ Ready size q) :
    Fitting size (handleClientClient size) q := by
  refine Program.within_op h fun closed hclosed => ?_
  have hclosed : closed = q.session.closed := hclosed
  have hq' : q.perform .loadClosed closed = q := perform_eq_self rfl rfl rfl
  rw [hq']
  cases closed with
  | true => exact fitting_leave
  | false =>
      have hready : Ready size q := hq.resolve_left (by simp [← hclosed])
      have hfits := hready.fits
      have hroom := room_eq hsize hfits h2
      refine Program.within_op ⟨h,by omega,by omega⟩ fun n hn => ?_
      have harmed : (q.perform .read n).armed = false := armed_perform h (by cases n <;> rfl)
      cases n with
      | error e =>
          have heq : q.perform .read (.error e) = q := perform_eq_self rfl rfl rfl
          cases e with
          | again => exact fitting_need_readd harmed (by rwa [heq])
          | badf => exact Program.within_op harmed fun _ _ => fitting_leave
          | other => exact fitting_should_close harmed
      | data bytes =>
          obtain ⟨endOfFile,hgive⟩ := hn
          have hlen := length_of_mayGive hgive
          cases bytes with
          | nil => exact fitting_should_close harmed
          | cons b bs => exact fitting_receive h2 h hready (by omega)

/-- Only an armed connection is handed on, and it is left as it is. -/
theorem Held.Fits.ready_perform {o : Op} {r : o.Res} (ho : q.Fits size o)
    (h : q.armed = true → Ready size q) (harmed : (q.perform o r).armed = true) :
    Ready size (q.perform o r) := by
  cases ha : q.armed with
  | true =>
      cases o with
      | release =>
          obtain ⟨hfits,hbytes,hterminated⟩ := h ha
          exact ⟨hfits,by simpa [Held.perform,semantics,taken] using hbytes,hterminated⟩
      | read | terminate | epollMod => simp [Held.Fits,ha] at ho
      | _ => exact absurd (ha.symm.trans ho) (by decide)
  | false =>
      cases o with
      | epollMod =>
          obtain ⟨-,hfits,hbytes,hterminated⟩ := ho
          exact ⟨hfits,by simpa [Held.perform,semantics,taken] using hbytes,hterminated⟩
      | _ => simp [Held.perform,rearms,ha] at harmed

end

/-! ## Sequences of calls -/

/-- A connection, and what is left of the call in progress. -/
structure State where
  held : Held
  call : Option Code

def State.initial (size : ℕ) : State := ⟨⟨.fresh size,[],true⟩,none⟩

inductive Action where
  | call
  | op (o : Op) (r : o.Res)
  | leave

/-- A call starts from the event of an armed connection, which disarms it; a task
that was queued before may also start after the connection was closed. -/
inductive Step (size : ℕ) : State → Action → State → Prop
  | call {q : Held} : q.armed = true ∨ q.session.closed = true →
      Step size ⟨q,none⟩ .call ⟨{q with armed := false},some (handleClientClient size)⟩
  | op {q : Held} {o : Op} {k : o.Res → Code} {r : o.Res} : q.Allows size o r →
      Step size ⟨q,some (.op o k)⟩ (.op o r) ⟨q.perform o r,some (k r)⟩
  | leave {q : Held} {outcome : Outcome} :
      Step size ⟨q,some (.ret outcome)⟩ .leave ⟨q,none⟩

def calls (size : ℕ) : System State Action := ⟨fun s => s = .initial size,Step size⟩

/-- The buffer of an armed connection is ready, and what is left of a call fits. -/
structure Sound (size : ℕ) (s : State) : Prop where
  ready : s.held.armed = true → Ready size s.held
  fitting : ∀ c, s.call = some c → Fitting size c s.held
  length : s.held.session.buffer.length = size

section
variable {size : ℕ} {s t : State}

theorem sound_initial (h2 : 2 ≤ size) : Sound size (.initial size) where
  ready _ := by
    apply ready_of_split rfl
    · exact ⟨List.replicate (size-1) 0,cleared_terminated (by omega)⟩
    · exact Nat.zero_le _
  fitting c hc := by cases hc
  length := List.length_replicate

theorem Sound.step (h2 : 2 ≤ size) (hsize : size < 2^31) {a : Action} (h : Sound size s)
    (hstep : Step size s a t) : Sound size t := by
  induction hstep with
  | @call q hq =>
      have hdisarmed : q.session.closed = true ∨ Ready size {q with armed := false} := by
        rcases hq with harmed | hclosed
        · obtain ⟨hfits,hbytes,hterminated⟩ := h.ready harmed
          exact .inr ⟨hfits,hbytes,hterminated⟩
        · exact .inl hclosed
      constructor
      · intro harmed
        cases harmed
      · intro c hc
        cases hc
        exact fitting_handleClientClient h2 hsize rfl hdisarmed
      · exact h.length
  | @op q o k r hr =>
      have hfits := (h.fitting _ rfl).guard
      have hrest := (h.fitting _ rfl).step hr
      constructor
      · exact hfits.ready_perform h.ready
      · intro c hc
        cases hc
        exact hrest
      · exact hfits.length_buffer hr h.length
  | leave =>
      constructor
      · exact h.ready
      · intro c hc
        cases hc
      · exact h.length

theorem sound_of_reach (h2 : 2 ≤ size) (hsize : size < 2^31) (h : (calls size).Reach Free s) :
    Sound size s := by
  apply h.invariant
  · rintro s rfl
    exact sound_initial h2
  · intro s a t _ hs _ hstep
    exact hs.step h2 hsize hstep

/-- `BUFFER_SIZE` is an `int`. Whenever the connection is armed the buffer holds what
has been read so far and its terminator, with a byte to spare. Every read is asked
for at least one byte, so that a result of 0 means the end of the file, and every
write stays inside the buffer. -/
theorem receive_buffer_invariant (h2 : 2 ≤ size) (hsize : size < 2^31)
    (h : (calls size).Reach Free s) :
    (s.held.armed = true → s.held.session.bytesRead ≤ size-2 ∧
      s.held.session.buffer.take s.held.session.bytesRead = s.held.received ∧
      s.held.session.buffer[s.held.session.bytesRead]? = some 0) ∧
    (∀ k, s.call = some (.op .read k) → 1 ≤ s.held.session.room size ∧
      s.held.session.bytesRead+s.held.session.room size ≤ s.held.session.buffer.length ∧
      ∀ endOfFile, MayGive (s.held.session.room size) endOfFile (.data []) →
        endOfFile = true) ∧
    (∀ k, s.call = some (.op .terminate k) →
      s.held.session.bytesRead < s.held.session.buffer.length) ∧
    s.held.session.buffer.length = size := by
  have hsound := sound_of_reach h2 hsize h
  refine ⟨fun harmed => ?_,fun k hk => ?_,fun k hk => ?_,hsound.length⟩
  · obtain ⟨hfits,hbytes,hterminated⟩ := hsound.ready harmed
    exact ⟨hfits,hbytes,hterminated⟩
  · obtain ⟨-,hasked,hroom⟩ := (hsound.fitting _ hk).guard
    rw [hsound.length]
    exact ⟨hasked,hroom,fun endOfFile hgive => endOfFile_of_mayGive hasked hgive⟩
  · obtain ⟨-,hroom⟩ := (hsound.fitting _ hk).guard
    rw [hsound.length]
    exact hroom

end

/-- A buffer of three bytes. The first call stores one byte, the second asks for
the last one that fits. -/
theorem receive_buffer_invariant_full : ∃ s, (calls 3).Reach Free s ∧
    (∃ k, s.call = some (.op .read k)) ∧ s.held.received = [71] ∧
    1 ≤ s.held.session.room 3 ∧
    s.held.session.bytesRead+s.held.session.room 3 ≤ s.held.session.buffer.length := by
  have h₀ : (calls 3).Reach Free (.initial 3) := .start rfl
  have h₁ := h₀.step trivial (.call (.inl rfl))
  have h₂ := h₁.step trivial (.op (o := .loadClosed) (r := false) rfl)
  have h₃ := h₂.step trivial (.op (o := .read) (r := .data [71])
    ⟨false,.bytes (by decide) (by decide)⟩)
  have h₄ := h₃.step trivial (.op (o := .advance 1) (r := ()) trivial)
  have h₅ := h₄.step trivial (.op (o := .terminate) (r := ()) trivial)
  have h₆ := h₅.step trivial (.op (o := .parse) (r := false) trivial)
  have h₇ := h₆.step trivial (.op (o := .loadBytesRead) (r := (1 : ℕ)) rfl)
  have h₈ := h₇.step trivial (.op (o := .loadClosed) (r := false) rfl)
  have h₉ := h₈.step trivial (.op (o := .epollMod) (r := true) trivial)
  have h₁₀ := h₉.step trivial (.op (o := .release) (r := ()) trivial)
  have h₁₁ := h₁₀.step trivial .leave
  have h₁₂ := h₁₁.step trivial (.call (.inl rfl))
  have h₁₃ := h₁₂.step trivial (.op (o := .loadClosed) (r := false) rfl)
  obtain ⟨-,hread,-⟩ := receive_buffer_invariant (by decide) (by decide) h₁₃
  obtain ⟨hasked,hroom,-⟩ := hread _ rfl
  exact ⟨_,h₁₃,⟨_,rfl⟩,rfl,hasked,hroom⟩

end WebServer.ReceiveBuffer
