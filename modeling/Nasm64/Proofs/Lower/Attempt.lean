import Mathlib.Data.List.Forall2

/-! Computations that may fail, in terms of their parts. -/
namespace Nasm64.Attempt

variable {ε α β : Type}

section

variable {first : Except ε α} {result : β}

theorem bind_eq_ok :
    (first >>= next) = .ok result ↔ ∃ val, first = .ok val ∧ next val = .ok result := by
  cases first with
  | ok val => simp [bind, Except.bind]
  | error error => simp [bind, Except.bind]

theorem map_eq_ok : f <$> first = .ok result ↔ ∃ val, first = .ok val ∧ f val = result := by
  cases first with
  | ok val => simp [Functor.map, Except.map]
  | error error => simp [Functor.map, Except.map]

end

variable {jobs : List α} {run : α → Except ε β} {results : List β} {halt : ε}

/-- Every member of the first list has its partner in the second. -/
theorem exists_partner (related : List.Forall₂ relation jobs results) (member : job ∈ jobs) :
    ∃ result ∈ results, relation job result := by
  induction related with
  | nil => cases member
  | cons here _ ih =>
    rcases List.mem_cons.mp member with rfl | member
    · exact ⟨_, List.mem_cons_self, here⟩
    · obtain ⟨result, listed, there⟩ := ih member
      exact ⟨result, List.mem_cons_of_mem _ listed, there⟩

theorem mapM_eq_ok (ran : jobs.mapM run = .ok results) :
    List.Forall₂ (fun job result => run job = .ok result) jobs results := by
  induction jobs generalizing results with
  | nil =>
    cases ran
    exact .nil
  | cons job rest ih =>
    rw [List.mapM_cons] at ran
    obtain ⟨result, outcome, ran⟩ := bind_eq_ok.mp ran
    obtain ⟨others, following, ⟨⟩⟩ := bind_eq_ok.mp ran
    exact .cons outcome (ih following)

theorem mapM_eq_error (failed : jobs.mapM run = .error halt) : ∃ job ∈ jobs, run job = .error halt := by
  induction jobs with
  | nil => cases failed
  | cons job rest ih =>
    rw [List.mapM_cons] at failed
    cases outcome : run job with
    | error reason =>
      simp only [outcome, bind, Except.bind, Except.error.injEq] at failed
      exact ⟨job, List.mem_cons_self, failed ▸ outcome⟩
    | ok result =>
      cases others : rest.mapM run with
      | error reason =>
        simp only [outcome, others, bind, Except.bind, Except.error.injEq] at failed
        obtain ⟨other, mem, same⟩ := ih (failed ▸ others)
        exact ⟨other, List.mem_cons_of_mem _ mem, same⟩
      | ok rests => simp [outcome, others, bind, Except.bind, pure, Except.pure] at failed

theorem exists_ok (x : Except ε α) (test : α → Bool) (passes : x.toOption.any test = true) :
    ∃ value, x = .ok value ∧ test value = true := by
  cases x with
  | error => cases passes
  | ok value => exact ⟨value, rfl, passes⟩

/-- Both computations succeed with related values, or both fail in the same way. -/
inductive Agree (post : α → β → Prop) : Except ε α → Except ε β → Prop
  | ok {left : α} {right : β} (holds : post left right) : Agree post (.ok left) (.ok right)
  | error {reason : ε} : Agree post (.error reason) (.error reason)

namespace Agree

variable {γ δ : Type} {post wider : α → β → Prop} {after : γ → δ → Prop} {x : Except ε α} {y : Except ε β}

theorem mono (agree : Agree post x y) (implies : ∀ left right, post left right → wider left right) :
    Agree wider x y := by
  cases agree with
  | ok holds => exact .ok (implies _ _ holds)
  | error => exact .error

theorem exists_ok (agree : Agree post (.ok left) y) : ∃ right, y = .ok right ∧ post left right := by
  cases agree with
  | ok holds => exact ⟨_, rfl, holds⟩

theorem bind (first : Agree post x y)
    (rest : ∀ left right, post left right → Agree after (f left) (g right)) :
    Agree after (x >>= f) (y >>= g) := by
  cases first with
  | ok holds => exact rest _ _ holds
  | error => exact .error

theorem mapM {run : γ → Except ε α} {other : γ → Except ε β} {jobs : List γ}
    (each : ∀ job ∈ jobs, Agree post (run job) (other job)) :
    Agree (List.Forall₂ post) (jobs.mapM run) (jobs.mapM other) := by
  induction jobs with
  | nil => exact .ok .nil
  | cons job rest ih =>
    rw [List.mapM_cons, List.mapM_cons]
    apply bind (each job List.mem_cons_self)
    intro left right holds
    apply bind (ih fun job mem => each job (List.mem_cons_of_mem _ mem))
    intro lefts rights all
    exact .ok (.cons holds all)

end Agree

end Nasm64.Attempt
