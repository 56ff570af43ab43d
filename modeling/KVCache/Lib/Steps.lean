import Mathlib.Logic.Relation

namespace KVCache.Lib

variable {σ ι : Type*}

-- `Steps step ok s s'`: some sequence of operations leads from `s` to `s'`, each
-- of them allowed by `ok` in the state it is applied to.
def Steps (step : σ → ι → σ) (ok : σ → ι → Prop) : σ → σ → Prop :=
  Relation.ReflTransGen fun s s' => ∃ op, ok s op ∧ s' = step s op

namespace Steps

variable {step : σ → ι → σ} {ok : σ → ι → Prop} {s s' : σ}

theorem refl (s : σ) : Steps step ok s s := Relation.ReflTransGen.refl

theorem snoc (h : Steps step ok s s') (op : ι) (hok : ok s' op) : Steps step ok s (step s' op) :=
  Relation.ReflTransGen.tail h ⟨op, hok, rfl⟩

theorem trans {s'' : σ} (h : Steps step ok s s') (h' : Steps step ok s' s'') :
    Steps step ok s s'' := Relation.ReflTransGen.trans h h'

-- What holds at the start and is kept by every allowed operation holds throughout.
theorem invariant {I : σ → Prop} (hstep : ∀ s op, I s → ok s op → I (step s op))
    (h : Steps step ok s s') (hs : I s) : I s' := by
  induction h with
  | refl => exact hs
  | tail _ hlast ih =>
      obtain ⟨op, hok, rfl⟩ := hlast
      exact hstep _ op ih hok

theorem mono {ok' : σ → ι → Prop} (hok : ∀ s op, ok s op → ok' s op) (h : Steps step ok s s') :
    Steps step ok' s s' :=
  Relation.ReflTransGen.mono (fun _ _ ⟨op, ho, he⟩ => ⟨op, hok _ op ho, he⟩) _ _ h

end Steps

end KVCache.Lib
