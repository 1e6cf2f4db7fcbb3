import Mathlib.Algebra.Order.Ring.Nat
import Mathlib.Logic.Function.Basic

/-! Computations that carry a cache, beside the ones that carry none. -/

namespace Memo

variable {σ α β κ : Type}

/-- A cached computation answers what the plain one does from every cache that is sound, and
leaves a sound cache. -/
def Refines (Sound : σ → Prop) (cached : StateT σ Option α) (plain : Option α) : Prop :=
  ∀ cache, Sound cache →
    match plain with
    | none => cached.run cache = none
    | some answer => ∃ left, cached.run cache = some (answer, left) ∧ Sound left

variable {Sound : σ → Prop}

theorem Refines.pure (answer : α) : Refines Sound (pure answer) (some answer) :=
  fun cache sound => ⟨cache, rfl, sound⟩

theorem Refines.lift (plain : Option α) : Refines Sound (StateT.lift plain) plain := by
  intro cache sound
  cases plain with
  | none => rfl
  | some answer => exact ⟨cache, rfl, sound⟩

theorem Refines.bind {first : StateT σ Option α} {plain : Option α}
    {next : α → StateT σ Option β} {plainNext : α → Option β} (one : Refines Sound first plain)
    (two : ∀ answer, Refines Sound (next answer) (plainNext answer)) :
    Refines Sound (first >>= next) (plain >>= plainNext) := by
  intro cache sound
  have ran := one cache sound
  rw [StateT.run_bind]
  cases plain with
  | none =>
    rw [ran]
    rfl
  | some answer =>
    obtain ⟨left, ran, kept⟩ := ran
    rw [ran]
    exact two answer left kept

theorem Refines.foldlM {step : β → α → StateT σ Option β} {plainStep : β → α → Option β}
    (each : ∀ state item, Refines Sound (step state item) (plainStep state item))
    (items : List α) (state : β) :
    Refines Sound (items.foldlM step state) (items.foldlM plainStep state) := by
  induction items generalizing state with
  | nil => exact Refines.pure state
  | cons item items ih =>
    exact (each state item).bind ih

/-- Answer from the cache, or compute and remember. -/
def memoized (recalled : σ → Option α) (remember : α → σ → σ) (compute : StateT σ Option α) :
    StateT σ Option α := do
  match recalled (← get) with
  | some answer => pure answer
  | none => do
    let answer ← compute
    modify (remember answer)
    pure answer

theorem memoized_run (recalled : σ → Option α) (remember : α → σ → σ) (compute : StateT σ Option α)
    (cache : σ) : (memoized recalled remember compute).run cache =
      match recalled cache with
      | some answer => some (answer, cache)
      | none => (compute.run cache).bind fun ran => some (ran.1, remember ran.1 ran.2) := by
  cases held : recalled cache with
  | some answer | none => simp [memoized, held]

/-- A recalled answer is the plain one, where the cache recalls only that. -/
theorem Refines.memoized {recalled : σ → Option α} {remember : α → σ → σ}
    {compute : StateT σ Option α} {plain : Option α} (computes : Refines Sound compute plain)
    (honest : ∀ cache answer, Sound cache → recalled cache = some answer → plain = some answer)
    (remembers : ∀ cache answer, Sound cache → plain = some answer →
      Sound (remember answer cache)) :
    Refines Sound (Memo.memoized recalled remember compute) plain := by
  intro cache sound
  rw [memoized_run]
  cases held : recalled cache with
  | some answer =>
    rw [honest cache answer sound held]
    exact ⟨cache, rfl, sound⟩
  | none =>
    have ran := computes cache sound
    cases plain with
    | none =>
      rw [ran]
      rfl
    | some answer =>
      obtain ⟨left, ran, kept⟩ := ran
      rw [ran]
      exact ⟨_, rfl, remembers left answer kept rfl⟩

end Memo
