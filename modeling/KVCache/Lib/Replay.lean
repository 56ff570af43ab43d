import Mathlib.Data.List.Induction

namespace KVCache.Lib

-- A log of changes `ε` to a state `σ`: `apply` makes a change, and `fits` says which
-- changes a state is ready for.
variable {σ ε : Type*} (apply : σ → ε → σ) (fits : σ → ε → Prop) (start : σ)

def replay (log : List ε) : σ := log.foldl apply start

-- Every entry fits the state that the entries before it lead to.
def Fitting (log : List ε) : Prop :=
  ∀ before e after, log = before ++ e :: after → fits (replay apply start before) e

variable {apply fits start} {log : List ε} {e : ε}

@[simp] theorem replay_nil : replay apply start [] = start := rfl

@[simp] theorem replay_snoc :
    replay apply start (log ++ [e]) = apply (replay apply start log) e := by
  simp [replay]

theorem Fitting.nil : Fitting apply fits start [] := by
  intro before e after h
  simp at h

theorem Fitting.snoc (h : Fitting apply fits start log) (he : fits (replay apply start log) e) :
    Fitting apply fits start (log ++ [e]) := by
  intro before e' after heq
  rcases List.eq_nil_or_concat after with rfl | ⟨after, last, rfl⟩
  · obtain ⟨rfl, hlast⟩ := List.append_inj' heq rfl
    cases hlast
    exact he
  · have heq : log ++ [e] = (before ++ e' :: after) ++ [last] := by simpa using heq
    exact h before e' after (List.append_inj' heq rfl).1

theorem Fitting.of_snoc (h : Fitting apply fits start (log ++ [e])) :
    Fitting apply fits start log ∧ fits (replay apply start log) e :=
  ⟨fun before e' after heq => h before e' (after ++ [e]) (by simp [heq]), h log e [] rfl⟩

-- What holds at the start and is kept by every entry that fits holds at the end.
theorem Fitting.induction {I : List ε → Prop} (hnil : I [])
    (hsnoc : ∀ log e, Fitting apply fits start log → fits (replay apply start log) e → I log →
      I (log ++ [e])) (h : Fitting apply fits start log) : I log := by
  induction log using List.reverseRecOn with
  | nil => exact hnil
  | append_singleton log e ih =>
      obtain ⟨hlog, he⟩ := h.of_snoc
      exact hsnoc log e hlog he (ih hlog)

end KVCache.Lib
