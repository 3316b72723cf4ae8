import Mathlib.Data.List.Basic
import Mathlib.Order.Lattice.Nat

/-!
# Programs that perform one operation at a time

A program is a finite tree of operations, each continued by the answer it
receives. It fixes no meaning for its operations. Three readings are given:

* a protocol is a finite control which every path of a program has to follow,
  and `Obeys` is checked once for a program and then consumed step by step;
* a semantics answers some operations from a local state and leaves the others
  to a script, so that a program, and a loop that calls it again and again, is
  an executable function of the script;
* a path is an interrupted execution, observed up to where it stands.

Where the control is a state that every operation changes, `Within` says that no
path of a program leaves what is permitted, and `Keeps` that a property holds all
along every path and another one where the program ends. What one call keeps, a
loop of calls keeps.

`May` and `depth` bound what is left of a program: which operations some path still
performs, and how many.

A program whose operations stand for calls is completed by the programs of these
calls.
-/
namespace WebServer.Interaction

/-- A program over operations `Op`, whose operation `o` is answered in `Res o`. -/
inductive Program (Op : Type) (Res : Op → Type) (α : Type) where
  | ret (a : α)
  | op (o : Op) (k : Res o → Program Op Res α)

variable {Op : Type} {Res : Op → Type} {α Q σ : Type}

/-- `allowed` says which answers the environment may give in a control state,
and `next` which operations are permitted there. -/
structure Protocol (Op : Type) (Res : Op → Type) (Q : Type) where
  allowed : Q → (o : Op) → Res o → Prop
  next : Q → (o : Op) → Res o → Option Q

/-- Every path of the program follows the protocol and ends in a final control state. -/
def Program.Obeys (P : Protocol Op Res Q) (final : Q → α → Prop) :
    Program Op Res α → Q → Prop
  | .ret a, q => final q a
  | .op o k, q => ∀ r, P.allowed q o r → ∃ q', P.next q o r = some q' ∧ (k r).Obeys P final q'

theorem Program.Obeys.step {P : Protocol Op Res Q} {final : Q → α → Prop} {o : Op}
    {k : Res o → Program Op Res α} {q : Q} (h : (Program.op o k).Obeys P final q)
    {r : Res o} (hr : P.allowed q o r) :
    ∃ q', P.next q o r = some q' ∧ (k r).Obeys P final q' := h r hr

/-- On every path each operation is permitted in the control state that the
operations before it have led to. -/
def Program.Within (allowed : Q → (o : Op) → Res o → Prop) (permitted : Q → Op → Prop)
    (perform : Q → (o : Op) → Res o → Q) : Program Op Res α → Q → Prop
  | .ret _, _ => True
  | .op o k, q => permitted q o ∧
      ∀ r, allowed q o r → (k r).Within allowed permitted perform (perform q o r)

section Within
variable {allowed : Q → (o : Op) → Res o → Prop} {permitted : Q → Op → Prop}
variable {perform : Q → (o : Op) → Res o → Q} {o : Op} {k : Res o → Program Op Res α} {q : Q}

theorem Program.within_op (ho : permitted q o)
    (hk : ∀ r, allowed q o r → (k r).Within allowed permitted perform (perform q o r)) :
    (Program.op o k).Within allowed permitted perform q := ⟨ho,hk⟩

theorem Program.Within.guard (h : (Program.op o k).Within allowed permitted perform q) :
    permitted q o := h.1

theorem Program.Within.step (h : (Program.op o k).Within allowed permitted perform q) {r : Res o}
    (hr : allowed q o r) : (k r).Within allowed permitted perform (perform q o r) := h.2 r hr

end Within

/-- `I` holds all along every path, and `final` where the program ends. -/
def Program.Keeps (allowed : Q → (o : Op) → Res o → Prop) (perform : Q → (o : Op) → Res o → Q)
    (I final : Q → Prop) : Program Op Res α → Q → Prop
  | .ret _, q => I q ∧ final q
  | .op o k, q => I q ∧
      ∀ r, allowed q o r → (k r).Keeps allowed perform I final (perform q o r)

section Keeps
variable {allowed : Q → (o : Op) → Res o → Prop} {perform : Q → (o : Op) → Res o → Q}
variable {I final : Q → Prop} {o : Op} {k : Res o → Program Op Res α} {q : Q}

theorem Program.keeps_op (hq : I q)
    (hk : ∀ r, allowed q o r → (k r).Keeps allowed perform I final (perform q o r)) :
    (Program.op o k).Keeps allowed perform I final q := ⟨hq,hk⟩

theorem Program.Keeps.step (h : (Program.op o k).Keeps allowed perform I final q) {r : Res o}
    (hr : allowed q o r) : (k r).Keeps allowed perform I final (perform q o r) := h.2 r hr

theorem Program.Keeps.holds {p : Program Op Res α} (h : p.Keeps allowed perform I final q) :
    I q := by
  cases p with
  | ret a => exact h.1
  | op o k => exact h.1

end Keeps

/-- Some path of the program performs the operation `o`. -/
def Program.May (o : Op) : Program Op Res α → Prop
  | .ret _ => False
  | .op o' k => o' = o ∨ ∃ r, (k r).May o

theorem Program.May.of_step {o o' : Op} {k : Res o' → Program Op Res α} {r : Res o'}
    (h : (k r).May o) : (Program.op o' k).May o := .inr ⟨r,h⟩

/-- No path of the program performs more than `n` operations. -/
def Program.Bounded : Program Op Res α → ℕ → Prop
  | .ret _, _ => True
  | .op _ _, 0 => False
  | .op _ k, n+1 => ∀ r, (k r).Bounded n

/-- The number of operations on the longest path of a bounded program. -/
noncomputable def Program.depth (p : Program Op Res α) : ℕ := sInf {n | p.Bounded n}

section Depth
variable {p : Program Op Res α} {n : ℕ} {o : Op} {k : Res o → Program Op Res α}

theorem Program.depth_le (h : p.Bounded n) : p.depth ≤ n := Nat.sInf_le h

theorem Program.Bounded.step (h : (Program.op o k).Bounded n) (r : Res o) :
    ∃ m, (k r).Bounded m := by
  cases n with
  | zero => exact h.elim
  | succ n => exact ⟨n,h r⟩

theorem Program.Bounded.mono {m : ℕ} (h : p.Bounded m) (hmn : m ≤ n) : p.Bounded n := by
  induction p generalizing m n with
  | ret a => trivial
  | op o k ih =>
      cases m with
      | zero => exact h.elim
      | succ m =>
          cases n with
          | zero => omega
          | succ n => exact fun r => ih r (h r) (Nat.le_of_succ_le_succ hmn)

/-- Performing an operation leaves a smaller program. -/
theorem Program.depth_step (h : (Program.op o k).Bounded n) (r : Res o) :
    (k r).depth < (Program.op o k).depth := by
  have hdepth : (Program.op o k).Bounded (Program.op o k).depth := Nat.sInf_mem ⟨n,h⟩
  cases hm : (Program.op o k).depth with
  | zero =>
      rw [hm] at hdepth
      exact hdepth.elim
  | succ m =>
      rw [hm] at hdepth
      exact Nat.lt_succ_of_le (Program.depth_le (hdepth r))

end Depth

/-- Sequential composition. -/
def Program.bind {β : Type} (p : Program Op Res α) (f : α → Program Op Res β) :
    Program Op Res β :=
  match p with
  | .ret a => f a
  | .op o k => .op o fun r => (k r).bind f

/-- Every operation is carried out by a program over other operations. -/
def Program.inline {Op' : Type} {Res' : Op' → Type}
    (f : (o : Op) → Program Op' Res' (Res o)) : Program Op Res α → Program Op' Res' α
  | .ret a => .ret a
  | .op o k => (f o).bind fun r => (k r).inline f

/-- The answer of an operation that is not external is a function of the local
state; silent operations are not observed. -/
structure Semantics (Op : Type) (Res : Op → Type) (σ : Type) where
  external : Op → Bool
  silent : Op → Bool
  silent_internal : ∀ o, silent o = true → external o = false
  known : (o : Op) → external o = false → σ → Res o
  effect : (o : Op) → Res o → σ → σ

/-- One observed operation, its answer, and the local state after it. -/
structure Observation (Op : Type) (Res : Op → Type) (σ : Type) where
  op : Op
  res : Res op
  state : σ

/-- A scripted answer to an external operation. -/
abbrev Answer (Op : Type) (Res : Op → Type) := Σ o : Op, Res o

namespace Semantics
variable (S : Semantics Op Res σ)

/-- The answers which a local state permits. -/
def Permits (d : σ) (o : Op) (r : Res o) : Prop :=
  ∀ h : S.external o = false, r = S.known o h d

def observe (o : Op) (r : Res o) (d : σ) : List (Observation Op Res σ) :=
  if S.silent o then [] else [⟨o,r,S.effect o r d⟩]

/-- The external answers in a list of observations. -/
def answers (tr : List (Observation Op Res σ)) : List (Answer Op Res) :=
  (tr.filter fun e => S.external e.op).map fun e => ⟨e.op,e.res⟩

@[simp] theorem answers_nil : S.answers [] = [] := rfl

@[simp] theorem answers_append (tr tr' : List (Observation Op Res σ)) :
    S.answers (tr++tr') = S.answers tr++S.answers tr' := by
  simp [answers]

theorem answers_observe_external {o : Op} (h : S.external o = true) (r : Res o) (d : σ) :
    S.answers (S.observe o r d) = [⟨o,r⟩] := by
  have hs : S.silent o = false := by
    by_contra hs
    simp [S.silent_internal o (by simpa using hs)] at h
  simp [answers,observe,hs,h]

theorem answers_observe_internal {o : Op} (h : S.external o = false) (r : Res o) (d : σ) :
    S.answers (S.observe o r d) = [] := by
  cases hs : S.silent o <;> simp [answers,observe,hs,h]

variable [DecidableEq Op]

/-- The next answer of a script, if it answers the operation that is due. -/
def pull (o : Op) : List (Answer Op Res) → Option (Res o × List (Answer Op Res))
  | [] => none
  | ⟨o',r⟩::as => if h : o' = o then some (h ▸ r,as) else none

/-- The answer an operation gets, from the local state or else from the script. -/
def supply (o : Op) (d : σ) (as : List (Answer Op Res)) : Option (Res o × List (Answer Op Res)) :=
  if h : S.external o = false then some (S.known o h d,as) else pull o as

/-- Execution against a script. It stops where an external answer is missing;
otherwise it returns the final local state and the rest of the script. -/
def exec : Program Op Res α → σ → List (Answer Op Res) →
    List (Observation Op Res σ) × Option (σ × List (Answer Op Res))
  | .ret _, d, as => ([],some (d,as))
  | .op o k, d, as =>
      match S.supply o d as with
      | none => ([],none)
      | some r =>
          let e := exec (k r.1) (S.effect o r.1 d) r.2
          (S.observe o r.1 d++e.1,e.2)

/-- A single-threaded loop that calls the program at most `n` times. -/
def loop (p : Program Op Res α) : ℕ → σ → List (Answer Op Res) → List (Observation Op Res σ)
  | 0, _, _ => []
  | n+1, d, as =>
      let e := S.exec p d as
      match e.2 with
      | none => e.1
      | some r => e.1++loop p n r.1 r.2

/-- The answer an operation gets, from the local state or else from the environment. -/
def answered (answer : (o : Op) → Res o) (o : Op) (d : σ) : Res o :=
  if h : S.external o = false then S.known o h d else answer o

/-- Execution in an environment that answers every operation. -/
def run (answer : (o : Op) → Res o) :
    Program Op Res α → σ → List (Observation Op Res σ) × σ
  | .ret _, d => ([],d)
  | .op o k, d =>
      let r := S.answered answer o d
      let e := run answer (k r) (S.effect o r d)
      (S.observe o r d++e.1,e.2)

/-- Where an interrupted loop stands: inside a call, with the rest of its
program, or between two calls. -/
inductive Serial (p : Program Op Res α) (d₀ : σ) :
    List (Observation Op Res σ) → Option (Program Op Res α) → σ → Prop
  | start : Serial p d₀ [] none d₀
  | call {tr : List (Observation Op Res σ)} {d : σ} :
      Serial p d₀ tr none d → Serial p d₀ tr (some p) d
  | op {tr : List (Observation Op Res σ)} {d : σ} {o : Op}
      {k : Res o → Program Op Res α} {r : Res o} :
      Serial p d₀ tr (some (.op o k)) d → S.Permits d o r →
      Serial p d₀ (tr++S.observe o r d) (some (k r)) (S.effect o r d)
  | leave {tr : List (Observation Op Res σ)} {d : σ} {a : α} :
      Serial p d₀ tr (some (.ret a)) d → Serial p d₀ tr none d

/-- What the loop still does from where it stands, with `m` further calls. -/
def resume (p : Program Op Res α) (m : ℕ) (d : σ) (as : List (Answer Op Res)) :
    Option (Program Op Res α) → List (Observation Op Res σ)
  | none => S.loop p m d as
  | some c =>
      let e := S.exec c d as
      match e.2 with
      | none => e.1
      | some r => e.1++S.loop p m r.1 r.2

variable {S}

theorem supply_observe {o : Op} {d : σ} {r : Res o} (hr : S.Permits d o r)
    (as : List (Answer Op Res)) :
    S.supply o d (S.answers (S.observe o r d)++as) = some (r,as) := by
  cases h : S.external o with
  | false =>
      rw [S.answers_observe_internal h,hr h]
      simp [supply,h]
  | true =>
      rw [S.answers_observe_external h]
      simp [supply,pull,h]

theorem exec_op {o : Op} {k : Res o → Program Op Res α} {d : σ} {r : Res o}
    (hr : S.Permits d o r) (as : List (Answer Op Res)) :
    S.exec (.op o k) d (S.answers (S.observe o r d)++as) =
      (S.observe o r d++(S.exec (k r) (S.effect o r d) as).1,
        (S.exec (k r) (S.effect o r d) as).2) := by
  simp only [exec,supply_observe hr]

theorem resume_op {p : Program Op Res α} {m : ℕ} {d : σ} {o : Op}
    {k : Res o → Program Op Res α} {r : Res o} (hr : S.Permits d o r)
    (as : List (Answer Op Res)) :
    S.resume p m d (S.answers (S.observe o r d)++as) (some (.op o k)) =
      S.observe o r d++S.resume p m (S.effect o r d) as (some (k r)) := by
  simp only [resume,exec_op hr]
  split <;> simp

/-- An interrupted loop run is a prefix of the executed loop, whatever the
script holds beyond the external answers which the run has consumed. -/
theorem Serial.resumes {p : Program Op Res α} {d₀ d : σ}
    {tr : List (Observation Op Res σ)} {c : Option (Program Op Res α)}
    (h : S.Serial p d₀ tr c d) (m : ℕ) (as : List (Answer Op Res)) :
    ∃ n, S.loop p n d₀ (S.answers tr++as) = tr++S.resume p m d as c := by
  induction h generalizing m as with
  | start => exact ⟨m,rfl⟩
  | call _ ih =>
      obtain ⟨n,hn⟩ := ih (m+1) as
      exact ⟨n,hn⟩
  | @op tr d o k r _ hr ih =>
      obtain ⟨n,hn⟩ := ih m (S.answers (S.observe o r d)++as)
      refine ⟨n,?_⟩
      rw [answers_append,List.append_assoc,hn,resume_op hr,List.append_assoc]
  | leave _ ih =>
      obtain ⟨n,hn⟩ := ih m as
      exact ⟨n,by simpa [resume,exec] using hn⟩

theorem Serial.prefix_loop {p : Program Op Res α} {d₀ d : σ}
    {tr : List (Observation Op Res σ)} {c : Option (Program Op Res α)}
    (h : S.Serial p d₀ tr c d) (as : List (Answer Op Res)) :
    ∃ n, tr <+: S.loop p n d₀ (S.answers tr++as) := by
  obtain ⟨n,hn⟩ := h.resumes 0 as
  exact ⟨n,hn ▸ List.prefix_append ..⟩

omit [DecidableEq Op] in
/-- The local state is the one after the last observation. -/
theorem Serial.state_eq (hsilent : ∀ o r d, S.silent o = true → S.effect o r d = d)
    {p : Program Op Res α} {d₀ d : σ} {tr : List (Observation Op Res σ)}
    {c : Option (Program Op Res α)} (h : S.Serial p d₀ tr c d) :
    d = (tr.getLast?.map Observation.state).getD d₀ := by
  induction h with
  | start => rfl
  | call _ ih => exact ih
  | leave _ ih => exact ih
  | @op tr d o k r _ hr ih =>
      cases hs : S.silent o with
      | false => simp [observe,hs]
      | true => simpa [observe,hs,hsilent o r d hs] using ih

omit [DecidableEq Op] in
/-- What every call keeps holds wherever a loop of calls is interrupted. The control
is read off the observations and the local state; `A` is known of the observations. -/
theorem Serial.keeps {p : Program Op Res α} {d₀ : σ} {allowed : Q → (o : Op) → Res o → Prop}
    {perform : Q → (o : Op) → Res o → Q} {I final : Q → Prop}
    {A : Observation Op Res σ → Prop} (track : List (Observation Op Res σ) → σ → Q)
    (hallowed : ∀ tr d o r, S.Permits d o r → (∀ e ∈ S.observe o r d, A e) →
      allowed (track tr d) o r)
    (hperform : ∀ tr d o r,
      perform (track tr d) o r = track (tr++S.observe o r d) (S.effect o r d))
    (hstart : I (track [] d₀) ∧ final (track [] d₀))
    (hcall : ∀ q, I q → final q → p.Keeps allowed perform I final q)
    {tr : List (Observation Op Res σ)} {d : σ} {c : Option (Program Op Res α)}
    (h : S.Serial p d₀ tr c d) (hA : ∀ e ∈ tr, A e) :
    I (track tr d) ∧ (c = none → final (track tr d)) := by
  suffices hs : match c with
      | none => I (track tr d) ∧ final (track tr d)
      | some c => c.Keeps allowed perform I final (track tr d) by
    cases c with
    | none => exact ⟨hs.1,fun _ => hs.2⟩
    | some c => exact ⟨hs.holds,fun hc => nomatch hc⟩
  induction h with
  | start => exact hstart
  | call _ ih => exact hcall _ (ih hA).1 (ih hA).2
  | @op tr d o k r _ hr ih =>
      obtain ⟨htr,hnew⟩ := List.forall_mem_append.mp hA
      have hstep := (ih htr).step (hallowed tr d o r hr hnew)
      rwa [hperform] at hstep
  | leave _ ih => exact ih hA

end Semantics
end WebServer.Interaction
