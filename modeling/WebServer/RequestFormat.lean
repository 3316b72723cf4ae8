import WebServer.Backlog

/-!
# A well-formed request is answered

A message as a client writes it: a request line of three tokens, header lines, and the
blank line. The parser reads the three tokens back, whatever follows the message. So a
client which sends a message that fits into the buffer gets it served: however it is cut
into fragments, whenever they arrive and whatever the other clients do: where the server
comes to rest it has called `on_message_` once, with the three tokens, and has closed the
connection, also if the client itself keeps it open.
-/
namespace WebServer.RequestFormat
open TransitionSystem Words RequestParsing RequestLine Contexts Handler Server
open Lifecycle Projection Sockets Streams RequestSplitting ConcurrentOutcome Completion
open Backlog (Alone Ended connected fails exists_bound done_of_ended reach_network reach_alone)

/-- A token of the request line. -/
structure Token where
  bytes : Bytes
  nonempty : bytes ≠ []
  plain : ∀ b ∈ bytes, isspace b = false ∧ b ≠ 0

/-- The bytes of a token can be checked one by one. -/
def Token.of (bytes : Bytes) (hne : bytes ≠ [])
    (h : bytes.all (fun b => !isspace b && b != 0) = true) : Token :=
  ⟨bytes,hne,fun b hb => by simpa using List.all_eq_true.mp h b hb⟩

/-- A header line. -/
structure Field where
  bytes : Bytes
  plain : ∀ b ∈ bytes, b ≠ 0

structure Message where
  method : Token
  path : Token
  protocol : Token
  fields : List Field

def space : UInt8 := 32

namespace Message
variable (m : Message)

def requestLine : Bytes := m.method.bytes++space::(m.path.bytes++space::m.protocol.bytes)

/-- Every header line starts on a line of its own, and a blank line ends the header. -/
def render : Bytes :=
  m.requestLine++(m.fields.flatMap fun f => cr::lf::f.bytes)++headerEnd

/-- What the callback is given. -/
def request : HttpRequest := ⟨m.method.bytes,m.path.bytes,m.protocol.bytes,true⟩

/-! ## The parser reads back what was written -/

theorem words_requestLine :
    words isspace m.requestLine = [m.method.bytes,m.path.bytes,m.protocol.bytes] := by
  have hspace : isspace space = true := by decide
  have hprotocol : words isspace m.protocol.bytes = [m.protocol.bytes] := by
    have hend : ∀ b ∈ ([] : Bytes).head?, isspace b = true := by simp
    have h := words_append (fun b hb => (m.protocol.plain b hb).1) m.protocol.nonempty hend
    rwa [List.append_nil,words_nil] at h
  rw [requestLine,words_append (fun b hb => (m.method.plain b hb).1) m.method.nonempty
      (by simp [hspace]),words_cons_separator hspace,
    words_append (fun b hb => (m.path.plain b hb).1) m.path.nonempty (by simp [hspace]),
    words_cons_separator hspace,hprotocol]

theorem mem_requestLine {b : UInt8} (hb : b ∈ m.requestLine) : b ≠ lf ∧ b ≠ 0 := by
  have htoken : ∀ t : Token, b ∈ t.bytes → b ≠ lf ∧ b ≠ 0 := by
    intro t ht
    obtain ⟨hplain,hnul⟩ := t.plain b ht
    refine ⟨?_,hnul⟩
    rintro rfl
    exact absurd hplain (by decide)
  simp only [requestLine,List.mem_append,List.mem_cons] at hb
  rcases hb with hb | rfl | hb | rfl | hb
  · exact htoken m.method hb
  · decide
  · exact htoken m.path hb
  · decide
  · exact htoken m.protocol hb

/-- The request line ends at the first carriage return and line feed. -/
theorem exists_render : ∃ rest, m.render = m.requestLine++cr::lf::rest := by
  unfold render
  cases m.fields with
  | nil => exact ⟨[cr,lf],by simp [headerEnd]⟩
  | cons f fields =>
      exact ⟨f.bytes++((fields.flatMap fun f => cr::lf::f.bytes)++headerEnd),by simp⟩

theorem requestOf_render (tail : Bytes) : requestOf (m.render++tail) = m.request := by
  obtain ⟨rest,hrest⟩ := m.exists_render
  have hline : (m.render++tail).takeWhile (· ≠ lf) = m.requestLine++[cr] := by
    rw [hrest,List.append_assoc,List.takeWhile_append_of_pos fun b hb => by
      simpa using (m.mem_requestLine hb).1]
    rfl
  rw [requestOf,hline,words_concat_separator (by decide),words_requestLine]
  rfl

theorem cString_render : cString m.render = m.render := by
  refine List.takeWhile_eq_self_iff.mpr fun b hb => ?_
  simp only [render,List.mem_append,List.mem_flatMap] at hb
  rcases hb with (hb | ⟨f,-,hb⟩) | hb
  · simpa using (m.mem_requestLine hb).2
  · rcases List.mem_cons.mp hb with rfl | hb
    · decide
    · rcases List.mem_cons.mp hb with rfl | hb
      · decide
      · simpa using f.plain b hb
  · simp only [headerEnd,List.mem_cons,List.not_mem_nil,or_false] at hb
    rcases hb with rfl | rfl | rfl | rfl <;> decide

theorem complete_render : headerEnd <:+: cString m.render := by
  rw [cString_render]
  exact (List.suffix_append _ _).isInfix

end Message

/-! ## The outcome of a stream that begins with a message -/

variable {N : ℕ} {cfg : Config} {size : ℕ} {m : Message} {stream : Bytes}

theorem outcome_of_message (hm : m.render <+: stream) (hfits : m.render.length < size) :
    outcome size stream = [m.request] := by
  rw [outcome_of_complete hm hfits m.complete_render]
  obtain ⟨tail,rfl⟩ := hm
  rw [m.requestOf_render]

theorem ripe_of_message (hm : m.render <+: stream) (hfits : m.render.length < size)
    (finished : Bool) : ripe size stream finished :=
  .inl (m.complete_render.trans (cString_prefix_visible hm hfits).isInfix)

/-- Where everything is at rest, the callback was called with the message. -/
theorem requests_of_message {s : Sockets.State N} (hcfg : Serves cfg)
    (h : (network N cfg).Reach (Lift Completion.Serving) s) (hrest : AtRest s) {c : ConnId}
    (hc : c < s.server.accepted) (hspared : Spared cfg s.server c)
    (hm : m.render <+: (s.sockets c).sent) (hfits : m.render.length < cfg.bufferSize) :
    (view s.server c).isOpen = false ∧ requests (traceOf cfg s.server c) = [m.request] := by
  have hanswers := hrest.answers hcfg h hc hspared
  have hclosed := hanswers.closed (ripe_of_message hm hfits _)
  exact ⟨hclosed,(hanswers.outcome hclosed).trans (outcome_of_message hm hfits)⟩

/-- While `on_connection_` returns, `epoll_wait` fails only by a signal and nobody destroys
the server, what it does alone from a reachable state on is bounded, but for two steps for
every call of `accept` that fails. Where it comes to an end every client which has sent a
message that fits into the buffer, whatever follows it and whatever happened to the others,
has been answered if it was spared: `on_message_` was called once, with the three tokens of
the message, and the connection is closed. -/
theorem well_formed_request_is_answered (hN : 0 < N) (hevents : 0 < cfg.maxEvents)
    (hcfg : Serves cfg) (s : Backlog.State N)
    (h : (Backlog.system N cfg).Reach Backlog.Serving s) :
    ∃ n, ∀ as t, (Backlog.system N cfg).Run Alone s as t →
      as.length ≤ n+2*as.countP fails ∧
      (Ended cfg t → ∀ c < connected s, Spared cfg t.network.server c → ∀ m : Message,
        m.render.length < cfg.bufferSize → m.render <+: (t.network.sockets c).sent →
          (view t.network.server c).isOpen = false ∧
            requests (traceOf cfg t.network.server c) = [m.request]) := by
  obtain ⟨n,hn⟩ := exists_bound h
  refine ⟨n,fun as t hrun => ⟨hn as t hrun,fun hended c hc hspared m hfits hm => ?_⟩⟩
  obtain ⟨⟨hrest,-⟩,hall⟩ := done_of_ended hN hevents h hrun hended
  exact requests_of_message hcfg (reach_network (reach_alone h hrun)) hrest (hall ▸ hc) hspared
    hm hfits

/-- `GET / HTTP/1.1` with one header line. -/
def hello : Message where
  method := .of [71,69,84] (by simp) (by decide)
  path := .of [47] (by simp) (by decide)
  protocol := .of [72,84,84,80,47,49,46,49] (by simp) (by decide)
  fields := [⟨[72,111,115,116,58,97],by simp⟩]

example : HttpRequest.empty.parse hello.render = (true,hello.request) := by decide

/-- A client has connected and sent the message. -/
theorem well_formed_request_is_answered_hello : ∃ s : Backlog.State 1,
    s.waiting = 1 ∧ (s.network.sockets 0).sent = hello.render ∧
    ∃ n, ∀ as t, (Backlog.system 1 .standard).Run Alone s as t →
      as.length ≤ n+2*as.countP fails ∧
      (Ended .standard t → ∀ c < connected s, Spared .standard t.network.server c →
        ∀ m : Message, m.render.length < bufferSize → m.render <+: (t.network.sockets c).sent →
          (view t.network.server c).isOpen = false ∧
            requests (traceOf .standard t.network.server c) = [m.request]) := by
  have h₁ : (Backlog.system 1 .standard).Reach Backlog.Serving ⟨.initial 1,1⟩ :=
    .step (a := .connect) (.start rfl) trivial ⟨trivial,rfl⟩
  have h₂ : (Backlog.system 1 .standard).Reach Backlog.Serving
      (Backlog.State.next .standard ⟨.initial 1,1⟩ (.network (.arrive 0 hello.render))) :=
    .step (a := .network (.arrive 0 hello.render)) h₁ trivial ⟨⟨⟨by decide,rfl⟩,trivial⟩,rfl⟩
  exact ⟨_,rfl,rfl,well_formed_request_is_answered Nat.one_pos (by decide) serves_standard _ h₂⟩

end WebServer.RequestFormat
