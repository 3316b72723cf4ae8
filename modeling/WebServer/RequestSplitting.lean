import WebServer.Handler
import WebServer.RequestLine

/-!
# One request, however it was split

The stream of a connection reaches the handler in fragments: every call reads
once, and the next call finds what the earlier ones have stored. As long as the
connection is open its session is a function of the bytes delivered so far, so
that the outcome is a function of the stream: the callback is called, with the
first words of the stream, where a blank line stands among the first
`BUFFER_SIZE - 1` bytes and before the first NUL, and otherwise the connection
is closed without a call.
-/
namespace WebServer.RequestSplitting
open RequestParsing RequestLine Words Contexts Interaction Handler

variable {size : ℕ} {s t : Session} {u stream bytes : Bytes}

abbrev Trace := List (Observation Op Op.Res Session)

/-- The requests with which `on_message_` was called. -/
def requests (tr : Trace) : List HttpRequest :=
  tr.filterMap fun e => if e.op = .onMessage then some e.state.request else none

/-- How often the descriptor was closed. -/
def closings (tr : Trace) : ℕ := tr.countP (·.op = .close)

@[simp] theorem requests_append (tr tr' : Trace) :
    requests (tr++tr') = requests tr++requests tr' := List.filterMap_append ..

@[simp] theorem closings_append (tr tr' : Trace) :
    closings (tr++tr') = closings tr+closings tr' := List.countP_append ..

/-- One call, in which `read` answers `n`, a callback is installed and returns,
and `EPOLL_CTL_MOD` succeeds. -/
def handle (size : ℕ) (n : ReadResult) (s : Session) : Trace × Session :=
  (semantics true).run (reply n false .returned true) (handleClientClient size) s

/-- A stream, followed by the end of file, is delivered to successive calls until
the connection is closed. A read returns any positive number of the next bytes
for which there is room, and may answer `EAGAIN` at any time. -/
inductive Delivery (size : ℕ) : Bytes → Session → Trace → Session → Prop
  | closed {stream : Bytes} {s : Session} : s.closed = true → Delivery size stream s [] s
  | again {stream : Bytes} {s t : Session} {tr : Trace} : s.closed = false →
      Delivery size stream (handle size (.error .again) s).2 tr t →
      Delivery size stream s ((handle size (.error .again) s).1++tr) t
  | fragment {bytes stream : Bytes} {s t : Session} {tr : Trace} : s.closed = false →
      bytes ≠ [] → bytes.length ≤ s.room size →
      Delivery size stream (handle size (.data bytes) s).2 tr t →
      Delivery size (bytes++stream) s ((handle size (.data bytes) s).1++tr) t
  | endOfFile {s t : Session} {tr : Trace} : s.closed = false →
      Delivery size [] (handle size (.data []) s).2 tr t →
      Delivery size [] s ((handle size (.data []) s).1++tr) t

/-! ## What one call does -/

theorem handle_again (size : ℕ) (h : s.closed = false) : (handle size (.error .again) s).2 = s ∧
    requests (handle size (.error .again) s).1 = [] ∧
    closings (handle size (.error .again) s).1 = 0 := by
  simp [handle,handleClientClient,afterRead,conclude,leave,Semantics.run,Semantics.answered,
    Semantics.observe,semantics,reply,requests,closings,h]

theorem handle_endOfFile (size : ℕ) (h : s.closed = false) :
    (handle size (.data []) s).2.closed = true ∧
    requests (handle size (.data []) s).1 = [] ∧
    closings (handle size (.data []) s).1 = 1 := by
  simp [handle,handleClientClient,afterRead,conclude,leave,Semantics.run,Semantics.answered,
    Semantics.observe,semantics,reply,requests,closings,h]

/-- The session after a fragment has been stored and terminated. -/
def received (s : Session) (bytes : Bytes) : Session :=
  { s with
    buffer := store (store s.buffer s.bytesRead bytes) (s.bytesRead+bytes.length) [0]
    bytesRead := s.bytesRead+bytes.length }

/-- What `parse` answers after the fragment has been stored. -/
def parsed (s : Session) (bytes : Bytes) : Bool × HttpRequest :=
  s.request.parse (cString (received s bytes).buffer)

theorem afterRead_data (hb : bytes ≠ []) :
    afterRead size (.data bytes) = receive size bytes := by
  cases bytes with
  | nil => exact (hb rfl).elim
  | cons b bs => rfl

theorem handle_complete (size : ℕ) (h : s.closed = false) (hb : bytes ≠ [])
    (hp : (parsed s bytes).1 = true) :
    (handle size (.data bytes) s).2.closed = true ∧
    requests (handle size (.data bytes) s).1 = [(parsed s bytes).2] ∧
    closings (handle size (.data bytes) s).1 = 1 := by
  simp only [parsed,received] at hp
  simp [handle,handleClientClient,afterRead_data hb,receive,conclude,leave,Semantics.run,
    Semantics.answered,Semantics.observe,semantics,reply,requests,closings,parsed,received,h,hp]

theorem handle_full (h : s.closed = false) (hb : bytes ≠ []) (hp : (parsed s bytes).1 = false)
    (hfull : size-1 ≤ s.bytesRead+bytes.length) :
    (handle size (.data bytes) s).2.closed = true ∧
    requests (handle size (.data bytes) s).1 = [] ∧
    closings (handle size (.data bytes) s).1 = 1 := by
  have hlen : size ≤ s.bytesRead+bytes.length+1 := by omega
  simp only [parsed,received] at hp
  simp [handle,handleClientClient,afterRead_data hb,receive,conclude,leave,Semantics.run,
    Semantics.answered,Semantics.observe,semantics,reply,requests,closings,h,hp,hlen]

theorem handle_partial (h : s.closed = false) (hb : bytes ≠ [])
    (hp : (parsed s bytes).1 = false) (hroom : s.bytesRead+bytes.length < size-1) :
    (handle size (.data bytes) s).2 = received s bytes ∧
    requests (handle size (.data bytes) s).1 = [] ∧
    closings (handle size (.data bytes) s).1 = 0 := by
  have hkeep := parse_snd_of_false s.request hp
  simp only [parsed,received] at hp hkeep
  have hlen : ¬ size ≤ s.bytesRead+bytes.length+1 := by omega
  simp [handle,handleClientClient,afterRead_data hb,receive,conclude,leave,Semantics.run,
    Semantics.answered,Semantics.observe,semantics,reply,requests,closings,received,h,hp,hkeep,
    hlen]

/-! ## The session of an open connection -/

/-- The session after the bytes `u` have been delivered and the connection was kept open. -/
structure Open (size : ℕ) (u : Bytes) (s : Session) : Prop where
  closed : s.closed = false
  request : s.request = .empty
  bytesRead : s.bytesRead = u.length
  buffer : ∃ rest, s.buffer = u++0::rest
  fits : u.length < size
  incomplete : ¬ headerEnd <:+: cString u

theorem open_fresh (hsize : 0 < size) : Open size [] (.fresh size) where
  closed := rfl
  request := rfl
  bytesRead := rfl
  buffer := ⟨List.replicate (size-1) 0,cleared_terminated hsize⟩
  fits := hsize
  incomplete := by simp [cString,headerEnd]

theorem cString_terminated (u rest : Bytes) : cString (u++0::rest) = cString u :=
  takeWhile_terminated (by simp) u rest

section Step
variable (h : Open size u s)
include h

/-- There is room for what a read may return. -/
theorem Open.room (hlen : bytes.length ≤ s.room size) : (u++bytes).length < size := by
  have hfits := h.fits
  rw [Session.room,h.bytesRead,toSize] at hlen
  rw [List.length_append]
  omega

theorem Open.received_buffer (bytes : Bytes) :
    ∃ rest, (received s bytes).buffer = (u++bytes)++0::rest := by
  obtain ⟨rest,hbuffer⟩ := h.buffer
  obtain ⟨rest',hstore⟩ := store_terminated u rest bytes
  exact ⟨rest',by rw [received,hbuffer,h.bytesRead,hstore]⟩

theorem Open.parsed_eq : parsed s bytes = HttpRequest.empty.parse (cString (u++bytes)) := by
  obtain ⟨rest,hbuffer⟩ := h.received_buffer bytes
  rw [parsed,h.request,hbuffer,cString_terminated]

theorem Open.received_open (hlen : bytes.length ≤ s.room size)
    (hp : (parsed s bytes).1 = false) : Open size (u++bytes) (received s bytes) where
  closed := h.closed
  request := h.request
  bytesRead := by simp [received,h.bytesRead]
  buffer := h.received_buffer bytes
  fits := h.room hlen
  incomplete := by
    rw [h.parsed_eq] at hp
    simp [← parse_fst_iff .empty,hp]

end Step

/-! ## The outcome of a stream -/

/-- The bytes among which the end of the header is looked for. -/
def visible (size : ℕ) (stream : Bytes) : Bytes := cString (stream.take (size-1))

/-- The first words of the first line. -/
def requestOf (stream : Bytes) : HttpRequest :=
  let line := words isspace (stream.takeWhile (· ≠ lf))
  ⟨line.getD 0 [],line.getD 1 [],line.getD 2 [],true⟩

/-- The calls of `on_message_` which a stream leads to. -/
def outcome (size : ℕ) (stream : Bytes) : List HttpRequest :=
  if headerEnd <:+: visible size stream then [requestOf stream] else []

theorem cString_prefix_visible (hu : u <+: stream) (hlen : u.length < size) :
    cString u <+: visible size stream :=
  prefix_takeWhile (List.prefix_take_iff.mpr ⟨hu,Nat.le_sub_one_of_lt hlen⟩)

/-- The first line lies in front of the end of the header. -/
theorem parse_eq_requestOf (hu : u <+: stream) (h : headerEnd <:+: cString u) :
    HttpRequest.empty.parse (cString u) = (true,requestOf stream) := by
  have hlf : ∃ b ∈ cString u, decide (b ≠ lf) = false :=
    ⟨lf,h.subset (by simp [headerEnd]),by simp⟩
  have hline : stream.takeWhile (· ≠ lf) = (cString u).takeWhile (· ≠ lf) :=
    takeWhile_of_prefix ((List.takeWhile_prefix _).trans hu) hlf
  rw [parse_of_complete _ h,assign_eq_words,words_popCr,requestOf,hline]
  rfl

theorem outcome_of_complete (hu : u <+: stream) (hlen : u.length < size)
    (h : headerEnd <:+: cString u) : outcome size stream = [requestOf stream] :=
  if_pos (h.trans (cString_prefix_visible hu hlen).isInfix)

/-- Nothing is recognised in a stream that has been seen as far as there is room. -/
theorem outcome_of_incomplete (hu : u = stream.take (size-1))
    (h : ¬ headerEnd <:+: cString u) : outcome size stream = [] :=
  if_neg (by rwa [visible,← hu])

theorem Delivery.of_closed {tr : Trace} (h : Delivery size stream s tr t)
    (hc : s.closed = true) : tr = [] ∧ t.closed = true := by
  cases h with
  | closed => exact ⟨rfl,hc⟩
  | again ho => simp [hc] at ho
  | fragment ho => simp [hc] at ho
  | endOfFile ho => simp [hc] at ho

/-- What a delivery leads to, from the bytes already stored and the bytes still to come. -/
theorem Delivery.outcome_eq {tr : Trace} (h : Delivery size stream s tr t)
    (ho : Open size u s) : requests tr = outcome size (u++stream) ∧ closings tr = 1 ∧
      t.closed = true := by
  induction h generalizing u with
  | closed hc => simp [ho.closed] at hc
  | again hc _ ih =>
      obtain ⟨hs,hrequests,hclosings⟩ := handle_again size hc
      obtain ⟨h₁,h₂,h₃⟩ := ih (u := u) (by rwa [hs])
      simp [hrequests,hclosings,h₁,h₂,h₃]
  | @fragment bytes stream s t tr hc hb hlen hrest ih =>
      have hu : u++bytes <+: u++(bytes++stream) :=
        ⟨stream,List.append_assoc ..⟩
      have hfits := ho.room hlen
      cases hp : (parsed s bytes).1 with
      | true =>
          have hcomplete : headerEnd <:+: cString (u++bytes) := by
            rw [← parse_fst_iff .empty,← ho.parsed_eq,hp]
          obtain ⟨hclosed,hrequests,hclosings⟩ := handle_complete size hc hb hp
          obtain ⟨rfl,ht⟩ := hrest.of_closed hclosed
          rw [ho.parsed_eq,parse_eq_requestOf hu hcomplete] at hrequests
          rw [List.append_nil,outcome_of_complete hu hfits hcomplete]
          exact ⟨hrequests,hclosings,ht⟩
      | false =>
          have hnext := ho.received_open hlen hp
          by_cases hfull : size-1 ≤ s.bytesRead+bytes.length
          · obtain ⟨hclosed,hrequests,hclosings⟩ := handle_full hc hb hp hfull
            obtain ⟨rfl,ht⟩ := hrest.of_closed hclosed
            have htake : u++bytes = (u++(bytes++stream)).take (size-1) := by
              have hlength : (u++bytes).length = size-1 := by
                rw [List.length_append,← ho.bytesRead] at *
                omega
              rw [← hlength,← List.append_assoc,List.take_left]
            rw [List.append_nil,outcome_of_incomplete htake hnext.incomplete]
            exact ⟨hrequests,hclosings,ht⟩
          · obtain ⟨hs,hrequests,hclosings⟩ := handle_partial hc hb hp (Nat.not_le.mp hfull)
            obtain ⟨h₁,h₂,h₃⟩ := ih (u := u++bytes) (by rwa [hs])
            simp [hrequests,hclosings,h₁,h₂,h₃]
  | @endOfFile s t tr hc hrest ih =>
      obtain ⟨hclosed,hrequests,hclosings⟩ := handle_endOfFile size hc
      obtain ⟨rfl,ht⟩ := hrest.of_closed hclosed
      have htake : u = (u++[]).take (size-1) := by
        rw [List.append_nil,List.take_of_length_le (Nat.le_sub_one_of_lt ho.fits)]
      rw [List.append_nil,outcome_of_incomplete htake ho.incomplete]
      exact ⟨hrequests,hclosings,ht⟩

/-- Every stream can be delivered, since there is always room for one more byte. -/
theorem exists_delivery (hsize : size ≤ 2^64) (stream : Bytes) (h : Open size u s)
    (hroom : u.length+1 < size) : ∃ tr t, Delivery size stream s tr t := by
  induction stream generalizing u s with
  | nil => exact ⟨_,_,.endOfFile h.closed (.closed (handle_endOfFile size h.closed).1)⟩
  | cons b stream ih =>
      have hb : [b] ≠ [] := List.cons_ne_nil b []
      have hlen : [b].length ≤ s.room size := by
        rw [Session.room,h.bytesRead,toSize,List.length_singleton]
        omega
      have hrest : ∃ tr t, Delivery size stream (handle size (.data [b]) s).2 tr t := by
        cases hp : (parsed s [b]).1 with
        | true => exact ⟨_,_,.closed (handle_complete size h.closed hb hp).1⟩
        | false =>
            by_cases hfull : size-1 ≤ s.bytesRead+[b].length
            · exact ⟨_,_,.closed (handle_full h.closed hb hp hfull).1⟩
            · obtain ⟨hs,-,-⟩ := handle_partial h.closed hb hp (Nat.not_le.mp hfull)
              rw [hs]
              apply ih (h.received_open hlen hp)
              rw [h.bytesRead] at hfull
              rw [List.length_append]
              omega
      obtain ⟨tr,t,hd⟩ := hrest
      have hall : Delivery size ([b]++stream) s _ t := .fragment h.closed hb hlen hd
      exact ⟨_,t,hall⟩

/-- Any two deliveries of a stream call `on_message_` once each, with the same
request, or close the connection without a call; and the request consists of the
first three words of the stream up to its first line feed. -/
theorem splitting_is_irrelevant (hsize : 0 < size) {t' : Session} {tr tr' : Trace}
    (h : Delivery size stream (.fresh size) tr t)
    (h' : Delivery size stream (.fresh size) tr' t') :
    ((∃ req req', requests tr = [req] ∧ requests tr' = [req'] ∧ req.method = req'.method ∧
        req.path = req'.path ∧ req.protocol = req'.protocol) ∨
      (requests tr = [] ∧ requests tr' = [] ∧ closings tr = 1 ∧ closings tr' = 1)) ∧
    ∀ req ∈ requests tr, let line := words isspace (stream.takeWhile (· ≠ lf))
      req.method = line.getD 0 [] ∧ req.path = line.getD 1 [] ∧
        req.protocol = line.getD 2 [] := by
  obtain ⟨hr,hc,-⟩ := h.outcome_eq (open_fresh hsize)
  obtain ⟨hr',hc',-⟩ := h'.outcome_eq (open_fresh hsize)
  rw [List.nil_append] at hr hr'
  by_cases hv : headerEnd <:+: visible size stream
  · rw [outcome,if_pos hv] at hr hr'
    refine ⟨.inl ⟨_,_,hr,hr',rfl,rfl,rfl⟩,fun req hm => ?_⟩
    rw [hr,List.mem_singleton] at hm
    subst hm
    exact ⟨rfl,rfl,rfl⟩
  · rw [outcome,if_neg hv] at hr hr'
    exact ⟨.inr ⟨hr,hr',hc,hc'⟩,fun req hm => by simp [hr] at hm⟩

/-- `GET /` and a blank line. -/
def greeting : Bytes := [71,69,84,32,47,13,10,13,10]

/-- The greeting is delivered at once, and cut inside its blank line. -/
theorem splitting_is_irrelevant_cut : ∃ tr tr' : Trace, ∃ t t' : Session,
    Delivery bufferSize greeting (.fresh bufferSize) tr t ∧
    Delivery bufferSize greeting (.fresh bufferSize) tr' t' ∧ tr.length < tr'.length ∧
    ∀ req ∈ requests tr, req.method = [71,69,84] ∧ req.path = [47] ∧ req.protocol = [] := by
  have h : Delivery bufferSize (greeting++[]) (.fresh bufferSize) _ _ :=
    .fragment rfl (by decide) (by decide) (.closed (by decide +kernel))
  have h' : Delivery bufferSize (greeting.take 7++(greeting.drop 7++[])) (.fresh bufferSize) _ _ :=
    .fragment rfl (by decide) (by decide) (.again (by decide +kernel)
      (.fragment (by decide +kernel) (by decide) (by decide +kernel) (.closed (by decide +kernel))))
  exact ⟨_,_,_,_,h,h',by decide +kernel,(splitting_is_irrelevant (by decide) h h').2⟩

end WebServer.RequestSplitting
