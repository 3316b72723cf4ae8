import Mathlib.Algebra.BigOperators.Group.Finset.Basic
import Mathlib.Data.Fintype.Basic

/-!
# Labelled transition systems and guarded runs

A system is given by its initial states and a labelled step relation. Every
result about runs is stated relative to a discipline: a predicate on a state
and the action taken there which the environment is assumed to respect. The
discipline `Free` assumes nothing.

The second half counts the members of a finite family of components, one of
which is updated at a time.
-/
namespace WebServer.TransitionSystem
open scoped BigOperators

structure System (S A : Type*) where
  init : S → Prop
  step : S → A → S → Prop

variable {S A T B : Type*}

/-- An assumption on each step of a run: which action may be taken in which state. -/
abbrev Discipline (S A : Type*) := S → A → Prop

def Free : Discipline S A := fun _ _ => True

instance (s : S) (a : A) : Decidable (Free s a) := isTrue trivial

/-- Guarded commands: an action is taken where it is enabled, and its effect is a function. -/
def System.guarded (init : S → Prop) (enabled : S → A → Prop) (next : S → A → S) : System S A :=
  ⟨init, fun s a t => enabled s a ∧ t = next s a⟩

/-- The states which some disciplined run reaches. -/
inductive System.Reach (M : System S A) (G : Discipline S A) : S → Prop
  | start {s : S} : M.init s → M.Reach G s
  | step {s t : S} {a : A} : M.Reach G s → G s a → M.step s a t → M.Reach G t

/-- A disciplined run segment with the actions it takes. -/
inductive System.Run (M : System S A) (G : Discipline S A) : S → List A → S → Prop
  | done (s : S) : M.Run G s [] s
  | step {s t u : S} {a : A} {as : List A} :
      G s a → M.step s a t → M.Run G t as u → M.Run G s (a::as) u

section Runs
variable {M : System S A} {G H : Discipline S A}

theorem System.Reach.mono (hGH : ∀ s a, G s a → H s a) {s : S} (h : M.Reach G s) :
    M.Reach H s := by
  induction h with
  | start hi => exact .start hi
  | step _ hg hs ih => exact .step ih (hGH _ _ hg) hs

/-- The invariant rule. The step case may use that its source is reachable. -/
theorem System.Reach.invariant {I : S → Prop} (h₀ : ∀ s, M.init s → I s)
    (h₁ : ∀ s a t, M.Reach G s → I s → G s a → M.step s a t → I t)
    {s : S} (h : M.Reach G s) : I s := by
  induction h with
  | start hi => exact h₀ _ hi
  | step hr hg hs ih => exact h₁ _ _ _ hr ih hg hs

theorem System.Run.reach {s t : S} {as : List A} (h : M.Run G s as t) (hs : M.Reach G s) :
    M.Reach G t := by
  induction h with
  | done _ => exact hs
  | step hg hst _ ih => exact ih (.step hs hg hst)

theorem System.Run.mono (hGH : ∀ s a, G s a → H s a) {s t : S} {as : List A}
    (h : M.Run G s as t) : M.Run H s as t := by
  induction h with
  | done s => exact .done s
  | step hg hst _ ih => exact .step (hGH _ _ hg) hst ih

/-- Forward simulation with stuttering: each disciplined concrete step is
matched by a disciplined abstract step or leaves the abstract state alone. -/
theorem System.Reach.simulates {W : System T B} {K : Discipline T B} {f : S → T}
    (h₀ : ∀ s, M.init s → W.init (f s))
    (h₁ : ∀ s a t, M.Reach G s → G s a → M.step s a t →
      f t = f s ∨ ∃ b, K (f s) b ∧ W.step (f s) b (f t))
    {s : S} (h : M.Reach G s) : W.Reach K (f s) := by
  induction h with
  | start hi => exact .start (h₀ _ hi)
  | @step s t a hr hg hs ih =>
      rcases h₁ s a t hr hg hs with he | ⟨b,hb,hw⟩
      · rw [he]
        exact ih
      · exact .step ih hb hw

/-- Where a potential falls at the steps which `p` counts, and rises by `m` at most and only
at those which `q` counts, the former are paid for by the potential and the latter. -/
theorem System.Run.countP_le {μ : S → ℕ} {I : S → Prop} {p q : A → Bool} {m : ℕ}
    (hI : ∀ s a t, I s → G s a → M.step s a t → I t)
    (hμ : ∀ s a t, I s → G s a → M.step s a t →
      μ t+(if p a then 1 else 0) ≤ μ s+if q a then m else 0)
    {s t : S} {as : List A} (h : M.Run G s as t) (hs : I s) :
    as.countP p+μ t ≤ μ s+m*as.countP q := by
  induction h with
  | done s => simp
  | @step s t u a as hg hst _ ih =>
      have hle := hμ s a t hs hg hst
      have hrest := ih (hI s a t hs hg hst)
      rw [List.countP_cons,List.countP_cons,Nat.mul_add,mul_ite,Nat.mul_one,Nat.mul_zero]
      omega

/-- Where the potential falls at every step but those which `q` counts, a run is as long as
the potential and these steps allow. -/
theorem System.Run.length_le {μ : S → ℕ} {I : S → Prop} {q : A → Bool} {m : ℕ}
    (hI : ∀ s a t, I s → G s a → M.step s a t → I t)
    (hμ : ∀ s a t, I s → G s a → M.step s a t → μ t+1 ≤ μ s+if q a then m else 0)
    {s t : S} {as : List A} (h : M.Run G s as t) (hs : I s) :
    as.length ≤ μ s+m*as.countP q := by
  have hcount := h.countP_le (p := fun _ => true) hI hμ hs
  rw [List.countP_true] at hcount
  exact (Nat.le_add_right _ _).trans hcount

/-- Forward simulation of run segments: where a matched step is labelled as its match and
a step that is not matched has no label, both runs have the same labels. -/
theorem System.Run.simulates {W : System T B} {K : Discipline T B} {f : S → T} {I : S → Prop}
    {E : Type*} {l : A → Option E} {m : B → Option E}
    (hI : ∀ s a t, I s → G s a → M.step s a t → I t)
    (h₁ : ∀ s a t, I s → G s a → M.step s a t → (f t = f s ∧ l a = none) ∨
      ∃ b, K (f s) b ∧ W.step (f s) b (f t) ∧ m b = l a)
    {s t : S} {as : List A} (h : M.Run G s as t) (hs : I s) :
    ∃ bs, W.Run K (f s) bs (f t) ∧ bs.filterMap m = as.filterMap l := by
  induction h with
  | done s => exact ⟨[],.done _,rfl⟩
  | @step s t u a as hg hst _ ih =>
      obtain ⟨bs,hrun,hlabels⟩ := ih (hI s a t hs hg hst)
      rcases h₁ s a t hs hg hst with ⟨hsame,hnone⟩ | ⟨b,hb,hw,hmark⟩
      · refine ⟨bs,hsame ▸ hrun,?_⟩
        rw [List.filterMap_cons_none hnone,hlabels]
      · refine ⟨b::bs,.step hb hw hrun,?_⟩
        rw [List.filterMap_cons,List.filterMap_cons,hmark,hlabels]

/-- A run can go on to a step with the property `B`. -/
def System.Leads (M : System S A) (B : S → A → Prop) (s : S) : Prop :=
  ∃ as t a u, M.Run Free s as t ∧ M.step t a u ∧ B t a

theorem System.Leads.now {B : S → A → Prop} {s t : S} {a : A} (hst : M.step s a t)
    (hb : B s a) : M.Leads B s := ⟨[],s,a,t,.done s,hst,hb⟩

theorem System.Leads.later {B : S → A → Prop} {s t : S} {a : A} (hst : M.step s a t)
    (h : M.Leads B t) : M.Leads B s := by
  obtain ⟨as,t,b,u,hrun,hstep,hb⟩ := h
  exact ⟨a::as,t,b,u,.step trivial hst hrun,hstep,hb⟩

end Runs

section Execution
variable {init : S → Prop} {enabled check : S → A → Prop} {next : S → A → S}
variable [∀ s a, Decidable (check s a)]

/-- Execution of a list of guarded commands, undefined where a check fails. -/
def execute (check : S → A → Prop) (next : S → A → S) [∀ s a, Decidable (check s a)] :
    S → List A → Option S
  | s, [] => some s
  | s, a::as => if check s a then execute check next (next s a) as else none

/-- An execution whose checks imply the guards and the discipline is a run. -/
theorem execute_run {G : Discipline S A} (hcheck : ∀ s a, check s a → G s a ∧ enabled s a)
    {s t : S} {as : List A} (h : execute check next s as = some t) :
    (System.guarded init enabled next).Run G s as t := by
  induction as generalizing s with
  | nil =>
      cases h
      exact .done _
  | cons a as ih =>
      simp only [execute] at h
      split_ifs at h with he
      obtain ⟨hg,he⟩ := hcheck s a he
      exact .step hg ⟨he,rfl⟩ (ih h)

/-- An execution from an initial state reaches what can be evaluated of its last state. -/
theorem execute_reach (init : S → Prop) {G : Discipline S A}
    (hcheck : ∀ s a, check s a → G s a ∧ enabled s a)
    {s : S} (hs : init s) {as : List A} {p : S → Bool}
    (h : (execute check next s as).any p = true) :
    ∃ t, (System.guarded init enabled next).Reach G t ∧ p t = true := by
  obtain ⟨t,ht,hp⟩ := (Option.any_eq_true _ _).mp h
  exact ⟨t,(execute_run hcheck ht).reach (.start hs),hp⟩

end Execution

section Tally
variable {ι M : Type*} [Fintype ι] [DecidableEq ι] [AddCommMonoid M]

/-- Updating one component replaces its own summand and keeps the rest. -/
theorem sum_update_split {β : Type*} (f : β → M) (g : ι → β) (i : ι) :
    ∃ rest, ∑ j, f (g j) = f (g i)+rest ∧
      ∀ x, ∑ j, f (Function.update g i x j) = f x+rest := by
  refine ⟨∑ j ∈ Finset.univ.erase i, f (g j),?_,fun x => ?_⟩
  · exact (Finset.add_sum_erase _ (fun j => f (g j)) (Finset.mem_univ i)).symm
  · rw [← Finset.add_sum_erase _ _ (Finset.mem_univ i),Function.update_self]
    congr 1
    exact Finset.sum_congr rfl fun j hj => by
      rw [Function.update_of_ne (Finset.ne_of_mem_erase hj)]

/-- Replacing a component by one of the same weight keeps the sum. -/
theorem sum_update_same {β : Type*} (f : β → M) (g : ι → β) (i : ι) {x : β}
    (hx : f x = f (g i)) : ∑ j, f (Function.update g i x j) = ∑ j, f (g j) := by
  obtain ⟨rest,h₁,h₂⟩ := sum_update_split f g i
  rw [h₂,h₁,hx]

end Tally

end WebServer.TransitionSystem
