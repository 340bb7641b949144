/-
`Client/Matrix.lean` -- the dot matrix of `telnet-Projekat.c`.

`hc595_in`, `hc595_out` and `matrixFunction` as what they do: the `digitalWrite` calls
in order, and the elements of the two tables that are read between them. The display
driver is two 74HC595 in a row on the three pins (`Lib/Shift.lean`), so what it shows
is a function of the writes alone.

`matrixFunction` runs off the end of its tables: the way back starts at
`sizeof(code_H)` and not one below it.
-/
import Mathlib.Data.Nat.Bitwise
import AutoMag.Lib.Shift

set_option autoImplicit false

namespace AutoMag.Client

open AutoMag.Machine AutoMag.Shift

/-! ## The driver -/

/-- Serial data input. -/
def SDI : ℕ := 28
/-- Memory clock input (STCP). -/
def RCLK : ℕ := 27
/-- Shift register clock input (SHCP). -/
def SRCLK : ℕ := 26

/-- One thing `matrixFunction` does: a table is read, or a pin is written. -/
inductive Signal where
  | code_L (i : ℕ)
  | code_H (i : ℕ)
  | digitalWrite (pin value : ℕ)
deriving DecidableEq, Repr

/-- `hc595_in`. The level written is the masked byte itself, 0x80 or 0. -/
def hc595_in (dat : UInt8) : List Signal :=
  (List.range 8).flatMap fun i =>
    [.digitalWrite SDI (0x80 &&& (dat.toNat <<< i)), .digitalWrite SRCLK 1, .digitalWrite SRCLK 0]

/-- `hc595_out`. -/
def hc595_out : List Signal := [.digitalWrite RCLK 1, .digitalWrite RCLK 0]

/-- What comes out on the pins: `digitalWrite` compares with `LOW`, so any value
but 0 is high. -/
def wires : Signal → List (Line × Bool)
  | .digitalWrite pin value =>
      if pin = SDI then [(.data, value ≠ 0)]
      else if pin = SRCLK then [(.clock, value ≠ 0)]
      else if pin = RCLK then [(.latch, value ≠ 0)]
      else []
  | _ => []

/-- The two registers under the writes of the program. -/
def drive (c : Chain 2 8) (signals : List Signal) : Chain 2 8 × List (Edge 8) :=
  feed Chain.write c (signals.flatMap wires)

/-- The outputs shown, in order. -/
def latches (edges : List (Edge 8)) : List (List (BitVec 8)) :=
  edges.flatMap fun | .latched outputs => [outputs] | .shifted _ => []

@[simp] theorem latches_append (as bs : List (Edge 8)) :
    latches (as ++ bs) = latches as ++ latches bs := List.flatMap_append ..

@[simp] theorem latches_shifted (ds : List Bool) : latches (ds.map .shifted) = [] := by
  induction ds with
  | nil => rfl
  | cons d ds ih => exact ih

/-- What is written in two parts, with the edges of both. -/
theorem drive_append (c : Chain 2 8) (as bs : List Signal) :
    drive c (as ++ bs)
      = ((drive (drive c as).1 bs).1, (drive c as).2 ++ (drive (drive c as).1 bs).2) := by
  simp only [drive, List.flatMap_append, feed_append]

/-- The level of the `i`-th write is the `i`-th bit from the top. The source
shifts in an `int`, masks with 0x80, and leaves it to `digitalWrite` to take
anything but 0 for high. -/
theorem masked_ne_zero (dat : UInt8) {i : ℕ} (hi : i < 8) :
    decide (0x80 &&& (dat.toNat <<< i) ≠ 0) = dat.toBitVec.getMsbD i := by
  have hmask : 0x80 &&& (dat.toNat <<< i) = 2 ^ 7 * (dat.toNat.testBit (7 - i)).toNat := by
    have hbit : (dat.toNat <<< i).testBit 7 = dat.toNat.testBit (7 - i) := by
      rw [Nat.testBit_shiftLeft]
      simp [show i ≤ 7 by omega]
    rw [← hbit, Nat.and_comm]
    exact (Nat.and_two_pow (dat.toNat <<< i) 7).trans (Nat.mul_comm _ _)
  have hmsb : dat.toBitVec.getMsbD i = dat.toNat.testBit (7 - i) := by
    rw [BitVec.getMsbD_eq_getLsbD]
    simp [hi, BitVec.getLsbD]
  rw [hmask, hmsb]
  cases dat.toNat.testBit (7 - i) <;> rfl

/-- On the wires `hc595_in` is the bits of its byte, clocked in: the library's
law of a cascade applies to it as it stands. -/
theorem wires_hc595_in (dat : UInt8) :
    (hc595_in dat).flatMap wires = (bits dat.toBitVec).flatMap clock_bit := by
  rw [hc595_in, List.flatMap_assoc, bits, List.flatMap_map]
  apply List.flatMap_congr
  intro i hi
  rw [clock_bit, ← masked_ne_zero dat (List.mem_range.mp hi)]
  rfl

/-- A list of bytes, one by one. -/
theorem wires_bytes (bytes : List UInt8) :
    (bytes.flatMap hc595_in).flatMap wires
      = (bytes.flatMap fun b => bits b.toBitVec).flatMap clock_bit := by
  rw [List.flatMap_assoc, List.flatMap_assoc]
  exact List.flatMap_congr fun b _ => wires_hc595_in b

theorem wires_hc595_out : hc595_out.flatMap wires = pulse := rfl

/-- Bytes shifted in: an edge for each bit, and the last ones are in the
registers. Of two registers the last two bytes are left, the latest nearest. -/
theorem drive_bytes (c : Chain 2 8) (bytes : List UInt8) (hc : c.clock = false) :
    (drive c (bytes.flatMap hc595_in)).1.stages
        = ((bytes.map UInt8.toBitVec).reverse ++ c.stages).take 2
      ∧ (drive c (bytes.flatMap hc595_in)).1.clock = false
      ∧ (drive c (bytes.flatMap hc595_in)).1.latch = c.latch
      ∧ (drive c (bytes.flatMap hc595_in)).2
        = (bytes.flatMap fun b => bits b.toBitVec).map .shifted := by
  have hwords : (bytes.flatMap fun b => bits b.toBitVec)
      = (bytes.map UInt8.toBitVec).flatMap bits := by
    rw [List.flatMap_map]
  rw [drive, wires_bytes, feed_clock_bits c _ hc]
  refine ⟨?_, hc, rfl, rfl⟩
  change shifts c.stages _ = _
  rw [hwords, shifts_words, c.stages_length]

/-- `hc595_out`: the registers are shown, both at once. -/
theorem drive_out (c : Chain 2 8) (hl : c.latch = false) :
    drive c hc595_out = ({ c with outputs := c.stages, outputs_length := c.stages_length },
      [.latched c.stages]) := by
  rw [drive, wires_hc595_out, feed_pulse c hl]

/-- `hc595_in` does not write the latch clock, so nothing is shown before
`hc595_out`. -/
theorem bytes_not_latch (bytes : List UInt8) :
    ∀ a ∈ (bytes.flatMap hc595_in).flatMap wires, a.1 ≠ .latch := by
  intro a ha
  rw [wires_bytes] at ha
  obtain ⟨d, _, ha⟩ := List.mem_flatMap.mp ha
  simp only [clock_bit, List.mem_cons, List.not_mem_nil, or_false] at ha
  rcases ha with rfl | rfl | rfl <;> simp

/-- **The serial output law**: eight edges for each byte, its bits from the top
down on a data line that is held; nothing shown before `hc595_out`; and then the
last byte in the near register and the one before it in the far one. -/
theorem hc595_serial (c : Chain 2 8) (hclock : c.clock = false) (hlatch : c.latch = false)
    (bytes : List UInt8) :
    (∀ pre b post, bytes = pre ++ b :: post →
      (drive (drive c (pre.flatMap hc595_in)).1 (hc595_in b)).2
          = (List.range 8).map (fun i => .shifted (b.toBitVec.getMsbD i))
        ∧ DataHeld (drive c (pre.flatMap hc595_in)).1 ((hc595_in b).flatMap wires))
    ∧ (∀ signals, signals <+: bytes.flatMap hc595_in →
        (drive c signals).1.outputs = c.outputs ∧ latches (drive c signals).2 = [])
    ∧ (∀ pre far near, bytes = pre ++ [far, near] →
        (drive c (bytes.flatMap hc595_in ++ hc595_out)).1.outputs
            = [near.toBitVec, far.toBitVec]
          ∧ latches (drive c (bytes.flatMap hc595_in ++ hc595_out)).2
            = [[near.toBitVec, far.toBitVec]]) := by
  refine ⟨?_, ?_, ?_⟩
  · intro pre b post _
    obtain ⟨_, hlow, _, _⟩ := drive_bytes c pre hclock
    refine ⟨?_, ?_⟩
    · rw [drive, wires_hc595_in, feed_clock_bits _ _ hlow, bits, List.map_map]
      rfl
    · rw [wires_hc595_in]
      exact dataHeld_clock_bits _ _ hlow
  · intro signals hpre
    obtain ⟨post, hpost⟩ := hpre
    have hnot : ∀ a ∈ signals.flatMap wires, a.1 ≠ .latch := by
      intro a ha
      apply bytes_not_latch bytes
      rw [← hpost, List.flatMap_append]
      exact List.mem_append_left _ ha
    obtain ⟨hout, hedge⟩ := feed_not_latch c _ hnot
    refine ⟨hout, ?_⟩
    apply List.flatMap_eq_nil_iff.mpr
    intro e he
    obtain ⟨d, rfl⟩ := hedge e he
    rfl
  · intro pre far near heq
    obtain ⟨hstages, _, hlow, hedges⟩ := drive_bytes c bytes hclock
    have htop : ((bytes.map UInt8.toBitVec).reverse ++ c.stages).take 2
        = [near.toBitVec, far.toBitVec] := by
      simp [heq]
    rw [drive_append, drive_out _ (hlow.trans hlatch)]
    refine ⟨hstages.trans htop, ?_⟩
    simp only
    rw [hedges, latches_append, latches_shifted, hstages, htop]
    rfl

/-- The law at work: three bytes into registers that held something else. -/
theorem hc595_serial_three :
    latches (drive ⟨true, false, false, [0xff, 0xff], [0, 0], rfl, rfl⟩
        ([0x80, 0x3f, 0xc0].flatMap hc595_in ++ hc595_out)).2 = [[0xc0, 0x3f]] :=
  ((hc595_serial ⟨true, false, false, [0xff, 0xff], [0, 0], rfl, rfl⟩ rfl rfl
    [0x80, 0x3f, 0xc0]).2.2 [0x80] 0x3f 0xc0 rfl).2

/-! ## The sweep -/

/-- The two tables, of one length, and the bytes in memory behind each (what is
behind those counts as 0). -/
structure Rows where
  code_L : List UInt8
  code_H : List UInt8
  same : code_L.length = code_H.length
  pastL : List UInt8
  pastH : List UInt8
deriving DecidableEq

/-- `code_L[i]`. -/
def Rows.low (T : Rows) (i : ℕ) : UInt8 := (T.code_L ++ T.pastL).getD i 0

/-- `code_H[i]`. -/
def Rows.high (T : Rows) (i : ℕ) : UInt8 := (T.code_H ++ T.pastH).getD i 0

/-- The body of both loops. -/
def Rows.row (T : Rows) (i : ℕ) : List Signal :=
  .code_L i :: hc595_in (T.low i) ++ .code_H i :: hc595_in (T.high i) ++ hc595_out

/-- `for (i = top; i >= 0; i--)`. -/
def Rows.back (T : Rows) : ℕ → List Signal
  | 0 => T.row 0
  | i + 1 => T.row (i + 1) ++ T.back i

/-- `matrixFunction`. The second loop begins at `sizeof(code_H)`. -/
def matrixFunction (T : Rows) : List Signal :=
  (List.range T.code_H.length).flatMap T.row ++ T.back T.code_H.length

/-- What the driver shows for row `i`: `code_H[i]` went in last and is in the
near register. -/
def Rows.shown (T : Rows) (i : ℕ) : List (BitVec 8) := [(T.high i).toBitVec, (T.low i).toBitVec]

/-- The elements read. -/
def accesses (signals : List Signal) : List ℕ :=
  signals.flatMap fun | .code_L i => [i] | .code_H i => [i] | .digitalWrite _ _ => []

/-- The loop down to 0, with the first index in it. -/
theorem Rows.back_eq (T : Rows) (top : ℕ) :
    T.back top = (List.range (top + 1)).reverse.flatMap T.row := by
  induction top with
  | zero => simp [Rows.back]
  | succ top ih =>
      rw [Rows.back, ih, List.range_succ (n := top + 1), List.reverse_append, List.flatMap_append]
      simp

/-- One row shown, with the clocks low again, which is what the next row begins
with. -/
theorem drive_row (T : Rows) (c : Chain 2 8) (i : ℕ) (hclock : c.clock = false)
    (hlatch : c.latch = false) :
    latches (drive c (T.row i)).2 = [T.shown i]
      ∧ (drive c (T.row i)).1.clock = false ∧ (drive c (T.row i)).1.latch = false := by
  -- the reads of the tables do not reach the pins
  have hrow : drive c (T.row i)
      = drive c ([T.low i, T.high i].flatMap hc595_in ++ hc595_out) := by
    simp only [drive, Rows.row, List.flatMap_append, List.flatMap_cons, List.flatMap_nil, wires,
      List.nil_append, List.append_nil]
  obtain ⟨hstages, hlow, hl, hedges⟩ := drive_bytes c [T.low i, T.high i] hclock
  rw [hrow, drive_append]
  generalize drive c ([T.low i, T.high i].flatMap hc595_in) = d at hstages hlow hl hedges
  rw [drive_out _ (hl.trans hlatch)]
  refine ⟨?_, hlow, hl.trans hlatch⟩
  simp only
  rw [hedges, latches_append, latches_shifted, hstages]
  rfl

/-- Any rows in any order: each is shown once, in that order. -/
theorem drive_rows (T : Rows) (c : Chain 2 8) (is : List ℕ) (hclock : c.clock = false)
    (hlatch : c.latch = false) : latches (drive c (is.flatMap T.row)).2 = is.map T.shown := by
  induction is generalizing c with
  | nil => rfl
  | cons i is ih =>
      obtain ⟨hshown, hclock', hlatch'⟩ := drive_row T c i hclock hlatch
      rw [List.flatMap_cons, drive_append, latches_append, hshown, ih _ hclock' hlatch']
      rfl

/-- The two loops: up over the tables, and down from one element behind them. -/
theorem matrixFunction_eq (T : Rows) :
    matrixFunction T
      = (List.range T.code_H.length
          ++ (List.range (T.code_H.length + 1)).reverse).flatMap T.row := by
  rw [matrixFunction, Rows.back_eq, List.flatMap_append]

/-- What the sweep does show: the rows, then what is behind the tables, then the
rows backwards. -/
theorem drive_matrixFunction (T : Rows) (c : Chain 2 8) (hclock : c.clock = false)
    (hlatch : c.latch = false) :
    latches (drive c (matrixFunction T)).2
      = (List.range T.code_H.length).map T.shown
        ++ T.shown T.code_H.length :: ((List.range T.code_H.length).map T.shown).reverse := by
  rw [matrixFunction_eq, drive_rows T c _ hclock hlatch, List.map_append, List.map_reverse,
    List.range_succ]
  simp

/-- The way back reads one element behind each table: it begins at
`sizeof(code_H)`, which is the length and not the last index. -/
theorem accesses_matrixFunction (T : Rows) : T.code_H.length ∈ accesses (matrixFunction T) := by
  have hrow : Signal.code_L T.code_H.length ∈ matrixFunction T := by
    rw [matrixFunction_eq]
    apply List.mem_flatMap.mpr
    refine ⟨T.code_H.length, by simp, ?_⟩
    exact List.mem_cons_self ..
  exact List.mem_flatMap.mpr ⟨_, hrow, by simp⟩

/-- What the sweep is meant to do from `c`: every row forwards, then backwards,
with no element read outside the tables. -/
def Sweeps (T : Rows) (c : Chain 2 8) : Prop :=
  latches (drive c (matrixFunction T)).2
      = (List.range T.code_H.length).map T.shown
        ++ ((List.range T.code_H.length).map T.shown).reverse
    ∧ ∀ i ∈ accesses (matrixFunction T), i < T.code_H.length

instance (T : Rows) (c : Chain 2 8) : Decidable (Sweeps T c) := inferInstanceAs (Decidable (_ ∧ _))

/-- **It never does**, whatever is in the tables, behind them and in the
registers: there is one output too many, and it comes from outside the
tables. -/
theorem matrixFunction_not_sweeps (T : Rows) (c : Chain 2 8) (hclock : c.clock = false)
    (hlatch : c.latch = false) :
    ¬ Sweeps T c
      ∧ (latches (drive c (matrixFunction T)).2).length = 2 * T.code_H.length + 1
      ∧ T.code_H.length ∈ accesses (matrixFunction T) := by
  have hread := accesses_matrixFunction T
  refine ⟨?_, ?_, hread⟩
  · intro hsweep
    exact absurd (hsweep.2 _ hread) (Nat.lt_irrefl _)
  · rw [drive_matrixFunction T c hclock hlatch]
    simp only [List.length_append, List.length_cons, List.length_reverse, List.length_map,
      List.length_range]
    omega

/-- The tables of the program. -/
def code_rows : Rows where
  code_L := [0xf0, 0xfe, 0x3f]
  code_H := [0x09, 0xff, 0xc0]
  same := rfl
  pastL := []
  pastH := []

/-- Registers as they are after power-up, with the pins low. -/
def cleared : Chain 2 8 := ⟨false, false, false, [0, 0], [0, 0], rfl, rfl⟩

/-- The program's own sweep. -/
theorem matrixFunction_not_sweeps_code :
    ¬ Sweeps code_rows cleared
      ∧ (latches (drive cleared (matrixFunction code_rows)).2).length
        = 2 * code_rows.code_H.length + 1
      ∧ code_rows.code_H.length ∈ accesses (matrixFunction code_rows) :=
  matrixFunction_not_sweeps code_rows cleared rfl rfl

/-- The sweep of the real tables: seven outputs, the fourth from behind the
tables. -/
theorem matrixFunction_code :
    ¬ Sweeps code_rows cleared
      ∧ latches (drive cleared (matrixFunction code_rows)).2
        = [[0x09, 0xf0], [0xff, 0xfe], [0xc0, 0x3f], [0, 0], [0xc0, 0x3f], [0xff, 0xfe],
          [0x09, 0xf0]] := by
  have hread := accesses_matrixFunction code_rows
  refine ⟨?_, ?_⟩
  · intro hsweep
    exact absurd (hsweep.2 _ hread) (Nat.lt_irrefl _)
  · exact (drive_matrixFunction code_rows cleared rfl rfl).trans (by decide)

end AutoMag.Client
