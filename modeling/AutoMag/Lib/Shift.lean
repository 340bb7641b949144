/-
`Lib/Shift.lean` -- cascaded serial-in, parallel-out registers with a latch.

A register of `w` bits takes one bit on each rising edge of the shift clock and
hands its oldest bit on to the register behind it; a rising edge of the latch clock
copies all of them to the outputs. The chain here has any number of registers and is
driven by writes to its three lines.

`feed_register` is the law of one register (clock in a word, get the old word out),
`shifts_words` that of the cascade, and `drive_words` lifts it to the lines.
-/
import Mathlib.Data.List.Induction
import Mathlib.Tactic.Common
import AutoMag.Lib.Machine

set_option autoImplicit false

namespace AutoMag.Shift

open AutoMag.Machine

/-! ## One register -/

section Register

variable {w : ℕ}

/-- The bits of a word, the most significant one first. -/
def bits (x : BitVec w) : List Bool := (List.range w).map x.getMsbD

@[simp] theorem bits_length (x : BitVec w) : (bits x).length = w := by
  simp only [bits, List.length_map, List.length_range]

/-- One clock: the new bit goes in at the low end, the top bit comes out. -/
def register (r : BitVec w) (d : Bool) : BitVec w × List Bool := (r.shiftConcat d, [r.msb])

/-- After `ds`, no more of them than the register is wide, its low bits are `ds`
and the rest is what was there, moved up; what came out is what was at the
top. -/
theorem feed_register_bits (r : BitVec w) (ds : List Bool) : ds.length ≤ w →
    (∀ j < w, (feed register r ds).1.getLsbD j
      = if j < ds.length then ds.getD (ds.length - 1 - j) false else r.getLsbD (j - ds.length))
    ∧ (feed register r ds).2 = (bits r).take ds.length := by
  induction ds using List.reverseRecOn with
  | nil =>
      intro _
      refine ⟨?_, rfl⟩
      intro j _
      simp
  | append_singleton ds d ih =>
      intro hlen
      rw [List.length_append, List.length_singleton] at hlen
      obtain ⟨hbits, hout⟩ := ih (by omega)
      rw [feed_append]
      simp only [feed_cons, feed_nil, register, List.append_nil, List.length_append,
        List.length_singleton]
      refine ⟨?_, ?_⟩
      · intro j hj
        rw [BitVec.getLsbD_shiftConcat]
        by_cases h0 : j = 0
        · simp [h0, show 0 < w by omega]
        · -- the bit at `j` was at `j - 1` one clock ago
          rw [if_neg h0, hbits (j - 1) (by omega)]
          by_cases hlow : j - 1 < ds.length
          · have hi : ds.length + 1 - 1 - j = ds.length - 1 - (j - 1) := by omega
            have hlt : ds.length - 1 - (j - 1) < ds.length := by omega
            rw [if_pos hlow, if_pos (by omega), hi, List.getD_eq_getElem?_getD,
              List.getD_eq_getElem?_getD, List.getElem?_append_left hlt]
            simp [hj]
          · have hi : j - 1 - ds.length = j - (ds.length + 1) := by omega
            rw [if_neg hlow, if_neg (by omega), hi]
            simp [hj]
      · -- the top bit has moved up from `w - 1 - ds.length`
        have htop : (feed register r ds).1.msb = r.getMsbD ds.length := by
          rw [BitVec.msb_eq_getLsbD_last, hbits (w - 1) (by omega), if_neg (by omega),
            BitVec.getMsbD_eq_getLsbD]
          simp [show ds.length < w by omega]
        rw [hout, htop, List.take_add_one]
        simp [bits, show ds.length < w by omega]

/-- **Clock in a word, get the old one out.** The bits come out in the order
they went in, so the next register is fed a word too. -/
theorem feed_register (r x : BitVec w) : feed register r (bits x) = (x, bits r) := by
  obtain ⟨hbits, hout⟩ := feed_register_bits r (bits x) (Nat.le_of_eq (bits_length x))
  rw [bits_length] at hbits hout
  have hstate : (feed register r (bits x)).1 = x := by
    apply BitVec.eq_of_getLsbD_eq
    intro j hj
    rw [hbits j hj, if_pos hj]
    simp only [bits, List.getD_eq_getElem?_getD, List.getElem?_map,
      List.getElem?_range (show w - 1 - j < w by omega), Option.map_some, Option.getD_some,
      BitVec.getMsbD_eq_getLsbD]
    have hi : w - 1 - (w - 1 - j) = j := by omega
    simp [hi, show w - 1 - j < w by omega]
  have hemit : (feed register r (bits x)).2 = bits r := by
    rw [hout, List.take_of_length_le (Nat.le_of_eq (bits_length r))]
  exact Prod.ext hstate hemit

end Register

/-! ## The cascade -/

section Cascade

variable {w : ℕ}

/-- One clock for all registers, the nearest first: each takes the bit the one
before it held at the top. -/
def shift (d : Bool) : List (BitVec w) → List (BitVec w)
  | [] => []
  | r :: rs => r.shiftConcat d :: shift r.msb rs

/-- A clock for each bit. -/
def shifts (rs : List (BitVec w)) (ds : List Bool) : List (BitVec w) :=
  ds.foldl (fun rs d => shift d rs) rs

/-- The registers behind the first are clocked with what comes out of it, at the
same edges. -/
theorem shifts_cons (r : BitVec w) (rs : List (BitVec w)) (ds : List Bool) :
    shifts (r :: rs) ds = (feed register r ds).1 :: shifts rs (feed register r ds).2 := by
  induction ds generalizing r rs with
  | nil => rfl
  | cons d ds ih =>
      have hstep : shifts (r :: rs) (d :: ds) = shifts (r.shiftConcat d :: shift r.msb rs) ds := rfl
      rw [hstep, ih, feed_cons]
      rfl

/-- One word: it is in the first register, and every old word is one further
on. -/
theorem shifts_bits (rs : List (BitVec w)) (x : BitVec w) :
    shifts rs (bits x) = (x :: rs).take rs.length := by
  induction rs generalizing x with
  | nil =>
      have hnil : ∀ ds : List Bool, shifts ([] : List (BitVec w)) ds = [] := by
        intro ds
        induction ds with
        | nil => rfl
        | cons d ds ih => exact ih
      exact hnil (bits x)
  | cons r rs ih => rw [shifts_cons, feed_register, ih, List.length_cons, List.take_succ_cons]

@[simp] theorem shift_length (d : Bool) (rs : List (BitVec w)) :
    (shift d rs).length = rs.length := by
  induction rs generalizing d with
  | nil => rfl
  | cons r rs ih => rw [shift, List.length_cons, ih, List.length_cons]

/-- **The cascade holds the last words sent, the latest nearest.** By induction
on the words; what does not fit falls out at the far end. -/
theorem shifts_words (xs rs : List (BitVec w)) :
    shifts rs (xs.flatMap bits) = (xs.reverse ++ rs).take rs.length := by
  induction xs generalizing rs with
  | nil => simp [shifts]
  | cons x xs ih =>
      have hsplit : shifts rs ((x :: xs).flatMap bits) = shifts (shifts rs (bits x))
          (xs.flatMap bits) := by
        rw [List.flatMap_cons, shifts, List.foldl_append]
        rfl
      -- what the first word pushes out at the end is past the last register either way
      have hlen : ((x :: rs).take rs.length).length = rs.length := by simp
      rw [hsplit, shifts_bits, ih, hlen, List.reverse_cons, List.append_assoc,
        List.singleton_append, List.take_append, List.take_append, List.take_take,
        Nat.min_eq_left (by omega)]

end Cascade

/-! ## The chain and its lines -/

/-- The three lines. -/
inductive Line where
  | data | clock | latch
deriving DecidableEq, Repr

/-- `n` registers of `w` bits, their outputs, and the levels of the lines. -/
@[ext]
structure Chain (n w : ℕ) where
  data : Bool
  clock : Bool
  latch : Bool
  stages : List (BitVec w)
  outputs : List (BitVec w)
  stages_length : stages.length = n
  outputs_length : outputs.length = n
deriving DecidableEq

/-- What a rising edge does: shift in the level of the data line, or show the
registers. -/
inductive Edge (w : ℕ) where
  | shifted (d : Bool)
  | latched (outputs : List (BitVec w))
deriving DecidableEq

section Lines

variable {n w : ℕ}

/-- A level put on a line; only a change from low to high of a clock does
anything. -/
def Chain.write (c : Chain n w) : Line × Bool → Chain n w × List (Edge w)
  | (.data, v) => ({ c with data := v }, [])
  | (.clock, v) =>
      if c.clock = false ∧ v = true then
        ({ c with
            clock := v, stages := shift c.data c.stages
            stages_length := (shift_length _ _).trans c.stages_length }, [.shifted c.data])
      else ({ c with clock := v }, [])
  | (.latch, v) =>
      if c.latch = false ∧ v = true then
        ({ c with latch := v, outputs := c.stages, outputs_length := c.stages_length },
          [.latched c.stages])
      else ({ c with latch := v }, [])

/-- The writes that clock one bit in. -/
def clock_bit (d : Bool) : List (Line × Bool) := [(.data, d), (.clock, true), (.clock, false)]

/-- The writes that show the registers. -/
def pulse : List (Line × Bool) := [(.latch, true), (.latch, false)]

/-- The chain with other registers, the data line at `d`. -/
def Chain.holding (c : Chain n w) (d : Bool) (rs : List (BitVec w)) (h : rs.length = n) :
    Chain n w :=
  { c with data := d, stages := rs, stages_length := h }

/-- No register is added or lost. -/
theorem shifts_length (rs : List (BitVec w)) (ds : List Bool) :
    (shifts rs ds).length = rs.length := by
  induction ds generalizing rs with
  | nil => rfl
  | cons d ds ih => exact (ih (shift d rs)).trans (shift_length d rs)

/-- The bits clocked in one by one: one edge each, and nothing changes but the
registers and the data line. -/
theorem feed_clock_bits (c : Chain n w) (ds : List Bool) (hc : c.clock = false) :
    feed Chain.write c (ds.flatMap clock_bit)
      = (c.holding (ds.getLastD c.data) (shifts c.stages ds)
          ((shifts_length _ _).trans c.stages_length), ds.map .shifted) := by
  induction ds generalizing c with
  | nil => rfl
  | cons d ds ih =>
      have hbit : feed Chain.write c (clock_bit d)
          = (c.holding d (shift d c.stages) ((shift_length _ _).trans c.stages_length),
              [.shifted d]) := by
        simp only [clock_bit, feed_cons, feed_nil, Chain.write, hc]
        simp [Chain.holding, hc]
      rw [List.flatMap_cons, feed_append, hbit]
      simp only
      rw [ih (c.holding d _ _) hc]
      simp only [Chain.holding, List.map_cons, List.singleton_append, List.getLastD_cons]
      rfl

/-- The pulse copies the registers to the outputs, all at once and at its rising
edge. -/
theorem feed_pulse (c : Chain n w) (hl : c.latch = false) :
    feed Chain.write c pulse
      = ({ c with outputs := c.stages, outputs_length := c.stages_length },
          [.latched c.stages]) := by
  simp only [pulse, feed_cons, feed_nil, Chain.write, hl]
  simp

/-- The data line is only written while the shift clock is low, so the level an
edge takes stands until the clock has fallen again. -/
def DataHeld : Chain n w → List (Line × Bool) → Prop
  | _, [] => True
  | c, a :: as => (a.1 = .data → c.clock = false) ∧ DataHeld (c.write a).1 as

/-- The writes of bits hold the data line: it is set before the clock goes up
and stays until it is down. -/
theorem dataHeld_clock_bits (c : Chain n w) (ds : List Bool) (hc : c.clock = false) :
    DataHeld c (ds.flatMap clock_bit) := by
  induction ds generalizing c with
  | nil => exact trivial
  | cons d ds ih =>
      -- the clock has been up and down again before the next bit
      refine ⟨fun _ => hc, nofun, nofun, ih _ ?_⟩
      simp [Chain.write]

/-- Without a write to the latch line the outputs stay, and nothing is shown of
what goes through the registers. -/
theorem feed_not_latch (c : Chain n w) (as : List (Line × Bool)) (h : ∀ a ∈ as, a.1 ≠ .latch) :
    (feed Chain.write c as).1.outputs = c.outputs
      ∧ ∀ e ∈ (feed Chain.write c as).2, ∃ d, e = .shifted d := by
  induction as generalizing c with
  | nil => exact ⟨rfl, nofun⟩
  | cons a as ih =>
      have hone : (c.write a).1.outputs = c.outputs ∧ ∀ e ∈ (c.write a).2, ∃ d, e = .shifted d := by
        obtain ⟨line, v⟩ := a
        cases line with
        | data => exact ⟨rfl, nofun⟩
        | clock =>
            simp only [Chain.write]
            split
            · exact ⟨rfl, by simp⟩
            · exact ⟨rfl, by simp⟩
        | latch => exact absurd rfl (h _ (List.mem_cons_self ..))
      obtain ⟨hout, hedge⟩ := ih (c.write a).1 fun a ha => h a (List.mem_cons_of_mem _ ha)
      rw [feed_cons]
      refine ⟨hout.trans hone.1, ?_⟩
      intro e he
      rcases List.mem_append.mp he with he | he
      · exact hone.2 e he
      · exact hedge e he

end Lines

end AutoMag.Shift
