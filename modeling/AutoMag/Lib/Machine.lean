/-
`Lib/Machine.lean` -- the loops everything here is built from.

A *run* folds a step function over a list of inputs: the poll loop. A *feed* is
the same with an output list per step: a byte parser, which may be handed its
input in one piece or in many. What is proved is what the rest of the
development cites: the induction rules for invariants (of every run, and of the
runs all of whose steps meet a condition), and that a feed does not see how its
input was cut. A *loop* decides for itself when it is over, and so need not be: it
runs on fuel, and has two rules, one for ending and one for never ending.
-/
import Mathlib.Data.List.Basic
import Mathlib.Tactic.Common

set_option autoImplicit false

namespace AutoMag.Machine

/-! ## Runs -/

section Run

variable {σ ι : Type*} (step : σ → ι → σ)

/-- The state after the inputs, in order. -/
def run (s : σ) (inputs : List ι) : σ := inputs.foldl step s

@[simp] theorem run_nil (s : σ) : run step s [] = s := rfl

@[simp] theorem run_cons (s : σ) (i : ι) (is : List ι) :
    run step s (i :: is) = run step (step s i) is := rfl

/-- What one step preserves, a run preserves. Every invariant of a loop of the
source is carried over its passes with this. -/
theorem run_invariant {I : σ → Prop} (hstep : ∀ s i, I s → I (step s i))
    {s : σ} (h : I s) (is : List ι) : I (run step s is) := by
  induction is generalizing s with
  | nil => exact h
  | cons i is ih => exact ih (hstep s i h)

/-- Every step of the run from `s` meets `C` (a condition on the state before
the step and its input). -/
def Along (C : σ → ι → Prop) : σ → List ι → Prop
  | _, [] => True
  | s, i :: is => C s i ∧ Along C (step s i) is

instance decidableAlong (C : σ → ι → Prop) [∀ s i, Decidable (C s i)] :
    ∀ (s : σ) (is : List ι), Decidable (Along step C s is)
  | _, [] => .isTrue trivial
  | s, i :: is => @instDecidableAnd _ _ _ (decidableAlong C (step s i) is)

/-- What one step preserves under `C`, a run all of whose steps meet `C`
preserves. -/
theorem run_invariant_along {I : σ → Prop} {C : σ → ι → Prop}
    (hstep : ∀ s i, I s → C s i → I (step s i))
    {s : σ} (h : I s) (is : List ι) (hC : Along step C s is) : I (run step s is) := by
  induction is generalizing s with
  | nil => exact h
  | cons i is ih => exact ih (hstep s i h hC.1) hC.2

/-- If `P`, once lost, is never regained, and a step that keeps `P` meets `C`,
then a run that ends in `P` meets `C` all along. -/
theorem along_of_run {I P : σ → Prop} {C : σ → ι → Prop} (hI : ∀ s i, I s → I (step s i))
    (hP : ∀ s i, P (step s i) → P s) (hC : ∀ s i, I s → P (step s i) → C s i)
    {s : σ} (h : I s) (is : List ι) (hend : P (run step s is)) : Along step C s is := by
  -- `P` at the end of a run gives `P` at its start
  have hback : ∀ (is : List ι) (s : σ), P (run step s is) → P s := by
    intro is
    induction is with
    | nil =>
        intro s h
        exact h
    | cons i is ih =>
        intro s h
        exact hP s i (ih _ h)
  induction is generalizing s with
  | nil => exact trivial
  | cons i is ih => exact ⟨hC s i h (hback is _ hend), ih (hI s i h) hend⟩

/-- Two conditions that agree in the states of an invariant, which the second
one keeps, are met by the same runs. -/
theorem along_congr {I : σ → Prop} {P C : σ → ι → Prop} (hiff : ∀ s i, I s → (P s i ↔ C s i))
    (hI : ∀ s i, I s → C s i → I (step s i)) {s : σ} (h : I s) (is : List ι) :
    Along step P s is ↔ Along step C s is := by
  induction is generalizing s with
  | nil => exact Iff.rfl
  | cons i is ih =>
      constructor
      · rintro ⟨hP, hrest⟩
        have hC := (hiff s i h).mp hP
        exact ⟨hC, (ih (hI s i h hC)).mp hrest⟩
      · rintro ⟨hC, hrest⟩
        exact ⟨(hiff s i h).mpr hC, (ih (hI s i h hC)).mpr hrest⟩

/-- Steps that meet `C` keep `I`; one that does not leads from `I` to `J`, which
is never left. So a run is in `I` at its end if all of its steps met `C`, and in
`J` if one did not. (`P` is what is known of the inputs.) -/
theorem run_dichotomy {I J : σ → Prop} {C : σ → ι → Prop} {P : ι → Prop}
    (hI : ∀ s i, P i → I s → C s i → I (step s i))
    (hlose : ∀ s i, P i → I s → ¬ C s i → J (step s i)) (hJ : ∀ s i, P i → J s → J (step s i))
    (is : List ι) (hP : ∀ i ∈ is, P i) {s : σ} (h : I s) :
    (Along step C s is ∧ I (run step s is)) ∨ (¬ Along step C s is ∧ J (run step s is)) := by
  have hJrun : ∀ (is : List ι), (∀ i ∈ is, P i) → ∀ s, J s → J (run step s is) := by
    intro is
    induction is with
    | nil =>
        intro _ s h
        exact h
    | cons i is ih =>
        intro hP s h
        exact ih (fun i hi => hP i (List.mem_cons_of_mem _ hi)) _
          (hJ s i (hP i (List.mem_cons_self ..)) h)
  induction is generalizing s with
  | nil => exact Or.inl ⟨trivial, h⟩
  | cons i is ih =>
      have hi := hP i (List.mem_cons_self ..)
      have his := fun j hj => hP j (List.mem_cons_of_mem _ hj)
      by_cases hC : C s i
      · rcases ih his (hI s i hi h hC) with ⟨halong, hend⟩ | ⟨halong, hend⟩
        · exact Or.inl ⟨⟨hC, halong⟩, hend⟩
        · exact Or.inr ⟨fun hall => halong hall.2, hend⟩
      · exact Or.inr ⟨fun hall => hC hall.1, hJrun is his _ (hlose s i hi h hC)⟩

/-- A run all of whose steps meet `C` does so up to any earlier point. -/
theorem Along.of_append {C : σ → ι → Prop} {s : σ} {is js : List ι}
    (h : Along step C s (is ++ js)) : Along step C s is := by
  induction is generalizing s with
  | nil => exact trivial
  | cons i is ih => exact ⟨h.1, ih h.2⟩

/-- And from there on, in the state the first part has led to. -/
theorem Along.of_append_right {C : σ → ι → Prop} {s : σ} {is js : List ι}
    (h : Along step C s (is ++ js)) : Along step C (run step s is) js := by
  induction is generalizing s with
  | nil => exact h
  | cons i is ih => exact ih h.2

end Run

/-! ## Feeds -/

section Feed

variable {σ α β : Type*} (step : σ → α → σ × List β)

/-- Hand the inputs to the machine one by one and collect its outputs. -/
def feed (s : σ) : List α → σ × List β
  | [] => (s, [])
  | a :: as =>
      let r := step s a
      let r' := feed r.1 as
      (r'.1, r.2 ++ r'.2)

@[simp] theorem feed_nil (s : σ) : feed step s [] = (s, []) := rfl

theorem feed_cons (s : σ) (a : α) (as : List α) :
    feed step s (a :: as)
      = ((feed step (step s a).1 as).1, (step s a).2 ++ (feed step (step s a).1 as).2) := rfl

/-- **A feed does not see a cut.** This is all that separates a stream from the
blocks it arrives in. -/
theorem feed_append (s : σ) (as bs : List α) :
    feed step s (as ++ bs)
      = ((feed step (feed step s as).1 bs).1,
         (feed step s as).2 ++ (feed step (feed step s as).1 bs).2) := by
  induction as generalizing s with
  | nil => simp
  | cons a as ih => rw [List.cons_append, feed_cons, ih, feed_cons]; simp

/-- Without its outputs a feed is a run, so what is known of runs is known of
its states. -/
theorem feed_fst {next : σ → α → σ} (hnext : ∀ s a, (step s a).1 = next s a) (s : σ) (as : List α) :
    (feed step s as).1 = run next s as := by
  induction as generalizing s with
  | nil => rfl
  | cons a as ih => rw [feed_cons, run_cons, ← hnext, ih]

/-- What holds of every output of one input in an invariant state holds of every
output of a feed. -/
theorem feed_outputs {I : σ → Prop} {P : β → Prop} (hstep : ∀ s a, I s → I (step s a).1)
    (hout : ∀ s a, I s → ∀ b ∈ (step s a).2, P b)
    {s : σ} (h : I s) (as : List α) : ∀ b ∈ (feed step s as).2, P b := by
  induction as generalizing s with
  | nil => intro b hb; cases hb
  | cons a as ih =>
      intro b hb
      rw [feed_cons] at hb
      rcases List.mem_append.mp hb with hb | hb
      · exact hout s a h b hb
      · exact ih (hstep s a h) b hb

/-- An invariant that ties the state to a fold of the outputs. -/
theorem feed_fold_invariant {γ : Type*} (g : γ → β → γ) {J : σ → γ → Prop}
    (hstep : ∀ s c a, J s c → J (step s a).1 ((step s a).2.foldl g c))
    {s : σ} {c : γ} (h : J s c) (as : List α) :
    J (feed step s as).1 ((feed step s as).2.foldl g c) := by
  induction as generalizing s c with
  | nil => exact h
  | cons a as ih =>
      rw [feed_cons, List.foldl_append]
      exact ih (hstep s c a h)

/-- **Amortised cost.** If a potential pays for the outputs that count, and an
input raises it by at most its price, the outputs of a feed cost no more than
its inputs and the potential at the start. (`P` is what is known of the
inputs.) -/
theorem feed_amortised {I : σ → Prop} {P : α → Prop} (potential : σ → ℕ) (count : β → Bool)
    (price : α → ℕ) (hI : ∀ s a, P a → I s → I (step s a).1)
    (hstep : ∀ s a, P a → I s →
      potential (step s a).1 + (step s a).2.countP count ≤ potential s + price a)
    (as : List α) (hP : ∀ a ∈ as, P a) {s : σ} (h : I s) :
    potential (feed step s as).1 + (feed step s as).2.countP count
      ≤ potential s + as.foldr (fun a n => price a + n) 0 := by
  induction as generalizing s with
  | nil => simp
  | cons a as ih =>
      have ha := hP a (List.mem_cons_self ..)
      have hfirst := hstep s a ha h
      have hrest := ih (fun b hb => hP b (List.mem_cons_of_mem _ hb)) (hI s a ha h)
      rw [feed_cons, List.countP_append, List.foldr_cons]
      simp only
      omega

end Feed

/-! ## Loops -/

section Loop

variable {σ ρ : Type*} (step : σ → σ ⊕ ρ)

/-- At most `fuel` passes of a loop whose body goes on (`inl`) or leaves
(`inr`); `none` if that was not enough. -/
def loop : ℕ → σ → Option ρ
  | 0, _ => none
  | fuel + 1, s =>
      match step s with
      | .inl s' => loop fuel s'
      | .inr r => some r

/-- The loop ends, with this result. -/
def Ends (s : σ) (r : ρ) : Prop := ∃ fuel, loop step fuel s = some r

theorem Ends.leave {s : σ} {r : ρ} (h : step s = .inr r) : Ends step s r := by
  refine ⟨1, ?_⟩
  simp only [loop, h]

/-- One pass more, and then as it goes on from there. -/
theorem Ends.pass {s s' : σ} {r : ρ} (h : step s = .inl s') (hr : Ends step s' r) :
    Ends step s r := by
  obtain ⟨fuel, hfuel⟩ := hr
  refine ⟨fuel + 1, ?_⟩
  simp only [loop, h, hfuel]

/-- A loop that goes on in every state of an invariant, and keeps it, never
ends. -/
theorem loop_never {I : σ → Prop} (hstep : ∀ s, I s → ∃ s', step s = .inl s' ∧ I s') :
    ∀ (fuel : ℕ) (s : σ), I s → loop step fuel s = none := by
  intro fuel
  induction fuel with
  | zero =>
      intro s _
      rfl
  | succ fuel ih =>
      intro s h
      obtain ⟨s', hs', h'⟩ := hstep s h
      simp only [loop, hs']
      exact ih s' h'

end Loop

end AutoMag.Machine
