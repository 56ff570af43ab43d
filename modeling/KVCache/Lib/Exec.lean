import Mathlib.Logic.Relation

namespace KVCache.Lib

-- Programs over a state that may throw; a throw keeps the state reached so far.
structure Exec (ε σ α : Type) where
  run : σ → Except ε α × σ

namespace Exec

variable {ε σ τ α β : Type}

instance : Monad (Exec ε σ) where
  pure a := ⟨fun s => (.ok a, s)⟩
  bind x f := ⟨fun s =>
    match x.run s with
    | (.ok a, s') => (f a).run s'
    | (.error e, s') => (.error e, s')⟩

def throw (e : ε) : Exec ε σ α := ⟨fun s => (.error e, s)⟩

def read (f : σ → α) : Exec ε σ α := ⟨fun s => (.ok (f s), s)⟩

def modify (f : σ → σ) : Exec ε σ Unit := ⟨fun s => (.ok (), f s)⟩

def modifyGet (f : σ → α × σ) : Exec ε σ α := ⟨fun s => (.ok (f s).1, (f s).2)⟩

-- A computation that reads the state and may throw.
def check (f : σ → Except ε α) : Exec ε σ α := ⟨fun s => (f s, s)⟩

-- A change of the state that may throw instead.
def update (f : σ → Except ε σ) : Exec ε σ Unit := ⟨fun s =>
  match f s with
  | .ok s' => (.ok (), s')
  | .error e => (.error e, s)⟩

-- Run a program on a part of the state.
def on (part : σ → τ) (put : σ → τ → σ) (x : Exec ε τ α) : Exec ε σ α := ⟨fun s =>
  ((x.run (part s)).1, put s (x.run (part s)).2)⟩

-- Where `x` throws, the state is cleaned up, with a view of the state before.
def onThrow (x : Exec ε σ α) (cleanup : σ → σ → σ) : Exec ε σ α := ⟨fun s =>
  match x.run s with
  | (.ok a, s') => (.ok a, s')
  | (.error e, s') => (.error e, cleanup s s')⟩

section Run

@[simp] theorem pure_run (a : α) (s : σ) : (pure a : Exec ε σ α).run s = (.ok a, s) := rfl

theorem bind_run (x : Exec ε σ α) (f : α → Exec ε σ β) (s : σ) :
    (x >>= f).run s =
      match x.run s with
      | (.ok a, s') => (f a).run s'
      | (.error e, s') => (.error e, s') := rfl

theorem bind_ok {x : Exec ε σ α} {a : α} {s s' : σ} (h : x.run s = (.ok a, s'))
    (f : α → Exec ε σ β) : (x >>= f).run s = (f a).run s' := by
  rw [bind_run, h]

theorem bind_error {x : Exec ε σ α} {e : ε} {s s' : σ} (h : x.run s = (.error e, s'))
    (f : α → Exec ε σ β) : (x >>= f).run s = (.error e, s') := by
  rw [bind_run, h]

-- A sequence returns when both of its parts do.
theorem bind_eq_ok {x : Exec ε σ α} {f : α → Exec ε σ β} {b : β} {s s' : σ} :
    (x >>= f).run s = (.ok b, s') ↔
      ∃ a s₁, x.run s = (.ok a, s₁) ∧ (f a).run s₁ = (.ok b, s') := by
  constructor
  · intro h
    rcases hx : x.run s with ⟨_ | a, s₁⟩
    · rw [bind_error hx] at h
      cases h
    · rw [bind_ok hx] at h
      exact ⟨a, s₁, rfl, h⟩
  · rintro ⟨a, s₁, hx, hf⟩
    rw [bind_ok hx, hf]

@[simp] theorem throw_run (e : ε) (s : σ) : (throw e : Exec ε σ α).run s = (.error e, s) := rfl

@[simp] theorem modify_run (g : σ → σ) (s : σ) :
    (modify g : Exec ε σ Unit).run s = (.ok (), g s) := rfl

@[simp] theorem pure_bind_run (a : α) (f : α → Exec ε σ β) (s : σ) :
    ((pure a : Exec ε σ α) >>= f).run s = (f a).run s := rfl

@[simp] theorem read_bind_run (g : σ → α) (f : α → Exec ε σ β) (s : σ) :
    (read g >>= f).run s = (f (g s)).run s := rfl

@[simp] theorem modify_bind_run (g : σ → σ) (f : Unit → Exec ε σ β) (s : σ) :
    (modify g >>= f).run s = (f ()).run (g s) := rfl

@[simp] theorem modifyGet_bind_run (g : σ → α × σ) (f : α → Exec ε σ β) (s : σ) :
    (modifyGet g >>= f).run s = (f (g s).1).run (g s).2 := rfl

@[simp] theorem check_bind_run (g : σ → Except ε α) (f : α → Exec ε σ β) (s : σ) :
    (check g >>= f).run s =
      match g s with
      | .ok a => (f a).run s
      | .error e => (.error e, s) := by
  rw [bind_run]
  cases h : g s <;> simp [check, h]

@[simp] theorem on_run (part : σ → τ) (put : σ → τ → σ) (x : Exec ε τ α) (s : σ) :
    (on part put x).run s = ((x.run (part s)).1, put s (x.run (part s)).2) := rfl

end Run

-- From a state with `I`, a run of `x` makes steps of `R` only, however it ends.
def Within (I : σ → Prop) (R : σ → σ → Prop) (x : Exec ε σ α) : Prop :=
  ∀ s, I s → Relation.ReflTransGen R s (x.run s).2

section Within

variable {I J : σ → Prop} {R : σ → σ → Prop} {x : Exec ε σ α}

theorem Within.pure (a : α) : Within I R (pure a : Exec ε σ α) := fun _ _ => .refl

-- What every step keeps holds where the steps lead.
theorem reach_invariant (hR : ∀ s s', J s → R s s' → J s') {s s' : σ}
    (h : Relation.ReflTransGen R s s') (hs : J s) : J s' := by
  induction h with
  | refl => exact hs
  | tail _ hlast ih => exact hR _ _ ih hlast

-- What follows may rely on how its argument came about.
theorem Within.bind_returned {f : α → Exec ε σ β} (hR : ∀ s s', I s → R s s' → I s')
    (hx : Within I R x) (hf : ∀ a s s', x.run s = (.ok a, s') → Within I R (f a)) :
    Within I R (x >>= f) := by
  intro s hs
  rw [bind_run]
  have hrun := hx s hs
  have hs' := reach_invariant hR hrun hs
  rcases h : x.run s with ⟨_ | a, s'⟩ <;> rw [h] at hrun hs'
  · exact hrun
  · exact hrun.trans (hf a s s' h s' hs')

theorem Within.bind {f : α → Exec ε σ β} (hR : ∀ s s', I s → R s s' → I s') (hx : Within I R x)
    (hf : ∀ a, Within I R (f a)) : Within I R (x >>= f) :=
  hx.bind_returned hR fun a _ _ _ => hf a

end Within

-- However a run of `x` ends, its last state is in `R` to its first.
def Keeps (R : σ → σ → Prop) (x : Exec ε σ α) : Prop := ∀ s, R s (x.run s).2

section Keeps

variable {R : σ → σ → Prop} {x : Exec ε σ α}

-- Two programs that keep different things, one after the other.
theorem Keeps.andThen {R' R'' : σ → σ → Prop} {f : α → Exec ε σ β}
    (hstop : ∀ s s', R s s' → R'' s s') (hcomp : ∀ s s' s'', R s s' → R' s' s'' → R'' s s'')
    (hx : Keeps R x) (hf : ∀ a, Keeps R' (f a)) : Keeps R'' (x >>= f) := by
  intro s
  have hfirst := hx s
  rw [bind_run]
  rcases hrun : x.run s with ⟨_ | a, s'⟩ <;> rw [hrun] at hfirst
  · exact hstop s s' hfirst
  · exact hcomp s s' _ hfirst (hf a s')

theorem Keeps.bind {f : α → Exec ε σ β} (htrans : ∀ s s' s'', R s s' → R s' s'' → R s s'')
    (hx : Keeps R x) (hf : ∀ a, Keeps R (f a)) : Keeps R (x >>= f) :=
  hx.andThen (fun _ _ h => h) htrans hf

end Keeps

-- From a state with `I`, a run of `x` returns, with `J`.
def Yields (I : σ → Prop) (x : Exec ε σ α) (J : α → σ → Prop) : Prop :=
  ∀ s, I s → ∃ a s', x.run s = (.ok a, s') ∧ J a s'

section Yields

variable {I : σ → Prop} {J : α → σ → Prop} {K : β → σ → Prop} {x : Exec ε σ α}
  {f : α → Exec ε σ β}

theorem Yields.bind (hx : Yields I x J) (hf : ∀ a, Yields (J a) (f a) K) :
    Yields I (x >>= f) K := by
  intro s hs
  obtain ⟨a, s', hrun, hJ⟩ := hx s hs
  rw [bind_ok hrun]
  exact hf a s' hJ

-- A loop, with what holds after each of its rounds.
theorem Yields.forM {γ : Type} {body : γ → Exec ε σ Unit} {I : List γ → σ → Prop} (l : List γ)
    (h : ∀ before x after, before ++ x :: after = l →
      Yields (I before) (body x) fun _ => I (before ++ [x])) :
    Yields (I []) (l.forM body) fun _ => I l := by
  suffices hrest : ∀ after before, before ++ after = l →
      Yields (I before) (after.forM body) fun _ => I l from hrest l [] rfl
  intro after
  induction after with
  | nil =>
      intro before hl
      rw [List.append_nil] at hl
      subst hl
      exact fun s hs => ⟨(), s, rfl, hs⟩
  | cons x after ih =>
      intro before hl
      exact (h before x after hl).bind fun _ => ih (before ++ [x]) (by simpa using hl)

end Yields

-- `y` does on a part of its state what `x` does, and answers the same.
def Over (part : τ → σ) (y : Exec ε τ α) (x : Exec ε σ α) : Prop :=
  ∀ t, (y.run t).1 = (x.run (part t)).1 ∧ part (y.run t).2 = (x.run (part t)).2

section Over

variable {part : τ → σ} {y : Exec ε τ α} {x : Exec ε σ α}

theorem Over.pure (a : α) : Over part (pure a : Exec ε τ α) (pure a) := fun _ => ⟨rfl, rfl⟩

theorem Over.bind {g : α → Exec ε τ β} {f : α → Exec ε σ β} (h : Over part y x)
    (hf : ∀ a, Over part (g a) (f a)) : Over part (y >>= g) (x >>= f) := by
  intro t
  obtain ⟨hres, hpart⟩ := h t
  rw [bind_run, bind_run]
  rcases hy : y.run t with ⟨_ | a, t'⟩ <;> rcases hx : x.run (part t) with ⟨_ | b, s'⟩ <;>
    rw [hy, hx] at hres hpart
  · exact ⟨congrArg _ (Except.error.inj hres), hpart⟩
  · cases hres
  · cases hres
  · cases hres
    obtain rfl : part t' = s' := hpart
    exact hf a t'

end Over

end Exec

end KVCache.Lib
