import Mathlib.Data.List.Basic

/-!
# Computations that ask an oracle

A computation asks questions, each one chosen by the answers before it.  A run
depends on the oracle only through the questions that were asked in it, and an
observer who sees questions and answers does not change it.
-/

/-- A computation of a result by questions, whose answers have the types `R`. -/
inductive Asking (Q : Type*) (R : Q → Type*) (α : Type*) where
  | done (result : α)
  | ask (question : Q) (next : R question → Asking Q R α)

namespace Asking

variable {Q : Type*} {R : Q → Type*} {α σ : Type*}

def run (oracle : (question : Q) → R question) : Asking Q R α → α
  | done result => result
  | ask question next => (next (oracle question)).run oracle

/-- The questions of a run, first to last. -/
def asked (oracle : (question : Q) → R question) : Asking Q R α → List Q
  | done _ => []
  | ask question next => question :: (next (oracle question)).asked oracle

/-- A run and the state of an observer after it. -/
def observed (oracle : (question : Q) → R question)
    (observe : σ → (question : Q) → R question → σ) : Asking Q R α → σ → α × σ
  | done result, s => (result, s)
  | ask question next, s =>
      (next (oracle question)).observed oracle observe (observe s question (oracle question))

variable {oracle oracle' : (question : Q) → R question}

theorem observed_eq (observe : σ → (question : Q) → R question → σ) (asking : Asking Q R α)
    (s : σ) :
    asking.observed oracle observe s = (asking.run oracle,
      (asking.asked oracle).foldl (fun s question ↦ observe s question (oracle question)) s) := by
  induction asking generalizing s with
  | done result => rfl
  | ask question next ih => exact ih (oracle question) (observe s question (oracle question))

/-- Oracles that answer what is asked alike. -/
theorem run_eq_of_asked {asking : Asking Q R α}
    (h : ∀ question ∈ asking.asked oracle, oracle' question = oracle question) :
    asking.run oracle' = asking.run oracle := by
  induction asking with
  | done result => rfl
  | ask question next ih =>
      have hfirst : oracle' question = oracle question := h question List.mem_cons_self
      rw [run, run, hfirst]
      apply ih
      intro later hlater
      exact h later (List.mem_cons_of_mem question hlater)

end Asking
