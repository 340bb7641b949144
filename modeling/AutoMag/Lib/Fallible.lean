/-
`Lib/Fallible.lean` -- programs that may end the process in the middle.

A computation in `Except` is a piece of a program that goes on with a new state or ends
the process. Two readings of a postcondition, one for each kind of result: what holds if
the piece goes on at all (`Ensures`, for invariants under any environment), and that it
goes on (`Gives`, for an environment in which nothing fails). Each has a rule for
sequencing and one for loops, the second loop rule against a loop that cannot fail.
-/
import Mathlib.Data.List.Basic
import Mathlib.Tactic.Common

set_option autoImplicit false

namespace AutoMag.Fallible

universe u v

variable {ε : Type u} {σ α β : Type v} {γ : Type*}

/-! ## 1. If it goes on -/

/-- If the computation goes on, its result is as described. -/
def Ensures (x : Except ε α) (Q : α → Prop) : Prop := ∀ a, x = .ok a → Q a

theorem ensures_ok {a : α} {Q : α → Prop} (h : Q a) : Ensures (.ok a : Except ε α) Q := by
  rintro b ⟨⟩
  exact h

theorem ensures_error (e : ε) (Q : α → Prop) : Ensures (.error e) Q := by
  rintro b ⟨⟩

/-- In sequence, as in a `do` block: what the first part leaves is what the
second may count on. -/
theorem Ensures.bind {x : Except ε α} {f : α → Except ε β} {Q : α → Prop} {Q' : β → Prop}
    (hx : Ensures x Q) (hf : ∀ a, Q a → Ensures (f a) Q') : Ensures (x >>= f) Q' := by
  cases x with
  | error e => exact ensures_error e Q'
  | ok a => exact hf a (hx a rfl)

theorem Ensures.map {x : Except ε α} {f : α → β} {Q : β → Prop} (hx : Ensures x fun a => Q (f a)) :
    Ensures (f <$> x) Q := by
  cases x with
  | error e => exact ensures_error e Q
  | ok a => exact ensures_ok (hx a rfl)

/-- What one pass of a loop keeps, the loop keeps. A loop that stops early has
no state to speak of, so there is nothing to show then. -/
theorem Ensures.foldlM {f : σ → α → Except ε σ} {I : σ → Prop} (as : List α)
    (hf : ∀ s, ∀ a ∈ as, I s → Ensures (f s a) I) : ∀ {s : σ}, I s → Ensures (as.foldlM f s) I := by
  induction as with
  | nil => exact fun h => ensures_ok h
  | cons a as ih =>
      intro s h
      rw [List.foldlM_cons]
      refine (hf s a (List.mem_cons_self ..) h).bind fun s' h' => ?_
      exact ih (fun s b hb => hf s b (List.mem_cons_of_mem _ hb)) h'

/-! ## 2. It goes on -/

/-- The computation goes on, with a result as described. -/
def Gives (x : Except ε α) (Q : α → Prop) : Prop := ∃ a, x = .ok a ∧ Q a

theorem gives_ok {a : α} {Q : α → Prop} (h : Q a) : Gives (.ok a : Except ε α) Q := ⟨a, rfl, h⟩

theorem Gives.mono {x : Except ε α} {Q Q' : α → Prop} (hx : Gives x Q) (h : ∀ a, Q a → Q' a) :
    Gives x Q' := by
  obtain ⟨a, ha, hQ⟩ := hx
  exact ⟨a, ha, h a hQ⟩

/-- In sequence. Here the second part is entered for certain, in the state the
first one gives. -/
theorem Gives.bind {x : Except ε α} {f : α → Except ε β} {Q : α → Prop} {Q' : β → Prop}
    (hx : Gives x Q) (hf : ∀ a, Q a → Gives (f a) Q') : Gives (x >>= f) Q' := by
  obtain ⟨a, rfl, h⟩ := hx
  exact hf a h

theorem Gives.map {x : Except ε α} {f : α → β} {Q : β → Prop} (hx : Gives x fun a => Q (f a)) :
    Gives (f <$> x) Q := by
  obtain ⟨a, rfl, h⟩ := hx
  exact gives_ok h

/-- A loop beside one that cannot fail: what one pass of the two keeps, the
loops keep. This is how a loop of the program is followed by a fold of its
specification. -/
theorem Gives.foldlM {f : σ → α → Except ε σ} {g : γ → α → γ} {R : σ → γ → Prop} (as : List α)
    (hf : ∀ s c, ∀ a ∈ as, R s c → Gives (f s a) fun s' => R s' (g c a)) :
    ∀ {s : σ} {c : γ}, R s c → Gives (as.foldlM f s) fun s' => R s' (as.foldl g c) := by
  induction as with
  | nil => exact fun h => gives_ok h
  | cons a as ih =>
      intro s c h
      rw [List.foldlM_cons, List.foldl_cons]
      refine (hf s c a (List.mem_cons_self ..) h).bind fun s' h' => ?_
      exact ih (fun s c b hb => hf s c b (List.mem_cons_of_mem _ hb)) h'

end AutoMag.Fallible
