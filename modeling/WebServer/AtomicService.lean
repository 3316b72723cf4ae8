import WebServer.TransitionSystem
import Mathlib.Data.List.Basic

/-!
# An atomic service

Clients send streams, and each of them is answered at most once: in a single step, with
a function of what it has sent so far, as soon as its stream is ripe for an answer. If
nothing that may follow a ripe stream changes the answer, then the moment of the answer
cannot be told from the outside: all answers are those of the whole streams.
-/
namespace WebServer.AtomicService
open TransitionSystem

structure Client (α ρ : Type*) where
  sent : List α
  finished : Bool
  answer : Option ρ

inductive Event (ι α : Type*) where
  | send (c : ι) (u : List α)
  | finish (c : ι)
  | serve (c : ι)

/-- What a client does: it sends something, or nothing any more. -/
def Event.input {ι α : Type*} : Event ι α → Option (ι × Option (List α))
  | .send c u => some (c,some u)
  | .finish c => some (c,none)
  | .serve _ => none

section
variable {ι α ρ : Type*} [DecidableEq ι] (ripe : List α → Bool → Prop) (answer : List α → ρ)

def enabled (s : ι → Client α ρ) : Event ι α → Prop
  | .send c u => u ≠ [] ∧ (s c).finished = false
  | .finish c => (s c).finished = false
  | .serve c => (s c).answer = none ∧ ripe (s c).sent (s c).finished

def next (s : ι → Client α ρ) : Event ι α → ι → Client α ρ
  | .send c u => Function.update s c {s c with sent := (s c).sent++u}
  | .finish c => Function.update s c {s c with finished := true}
  | .serve c => Function.update s c {s c with answer := some (answer (s c).sent)}

def service : System (ι → Client α ρ) (Event ι α) :=
  System.guarded (fun s => s = fun _ => ⟨[],false,none⟩) (enabled ripe) (next answer)

/-- What follows a ripe stream does not change its answer. -/
def Settled : Prop := ∀ u v, ripe u false → answer (u++v) = answer u

/-- A client was answered at some point of its stream that was ripe, or at the end. -/
def Answered (x : Client α ρ) : Prop :=
  ∀ r ∈ x.answer, ∃ u, u <+: x.sent ∧ r = answer u ∧
    (ripe u false ∨ (x.finished = true ∧ u = x.sent))

variable {ripe answer} {s : ι → Client α ρ}

theorem answered_next (h : ∀ c, Answered ripe answer (s c)) {e : Event ι α}
    (he : enabled ripe s e) (c : ι) : Answered ripe answer (next answer s e c) := by
  cases e with
  | send d u =>
      by_cases hc : c = d
      · subst hc
        simp only [next,Function.update_self]
        intro r hr
        obtain ⟨v,hv,hrv,hripe⟩ := h c r hr
        refine ⟨v,hv.trans (List.prefix_append ..),hrv,.inl (hripe.resolve_right ?_)⟩
        rintro ⟨hfinished,-⟩
        exact absurd (hfinished.symm.trans he.2) (by decide)
      · simp only [next,Function.update_of_ne hc]
        exact h c
  | finish d =>
      by_cases hc : c = d
      · subst hc
        simp only [next,Function.update_self]
        intro r hr
        obtain ⟨v,hv,hrv,hripe⟩ := h c r hr
        exact ⟨v,hv,hrv,hripe.imp id fun hx => ⟨rfl,hx.2⟩⟩
      · simp only [next,Function.update_of_ne hc]
        exact h c
  | serve d =>
      by_cases hc : c = d
      · subst hc
        simp only [next,Function.update_self]
        intro r hr
        have hripe := he.2
        cases hfinished : (s c).finished with
        | true => exact ⟨_,List.prefix_rfl,(Option.some.inj hr).symm,.inr ⟨rfl,rfl⟩⟩
        | false =>
            rw [hfinished] at hripe
            exact ⟨_,List.prefix_rfl,(Option.some.inj hr).symm,.inl hripe⟩
      · simp only [next,Function.update_of_ne hc]
        exact h c

/-- The answers which were given are those of the whole streams. -/
theorem answer_of_stream (hsettled : Settled ripe answer)
    (h : (service (ι := ι) ripe answer).Reach Free s) {c : ι} {r : ρ}
    (hr : (s c).answer = some r) : r = answer (s c).sent := by
  have hall : ∀ c, Answered ripe answer (s c) := by
    refine h.invariant (I := fun s => ∀ c, Answered ripe answer (s c)) ?_ ?_
    · rintro _ rfl c r hr
      cases hr
    · rintro s e _ - ih - ⟨he,rfl⟩
      exact answered_next ih he
  obtain ⟨u,⟨v,hv⟩,rfl,hripe | ⟨-,rfl⟩⟩ := hall c r hr
  · rw [← hv,hsettled u v hripe]
  · rfl

end

end WebServer.AtomicService
