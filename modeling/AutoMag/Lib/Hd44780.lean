/-
`Lib/Hd44780.lean` -- the controller of a character display.

The part of an HD44780 that a driver writing to it can see: the instructions, the two memories
with the address counter that walks them, and the bus, which takes a byte at once or in two
halves. Timing and reading back are left out. `Chip.glass` is what a cell of the display shows.

Two rules carry the drivers. A byte gets through whole if both ends agree on the width of the
bus (`latch_byte`, `latch_halves`); and three function sets make them agree from any state, in
particular from between two halves (`resync`).
-/
import Mathlib.Data.List.Basic
import Mathlib.Logic.Function.Basic
import Mathlib.Tactic.Common

set_option autoImplicit false

namespace AutoMag.Hd44780

/-! ## 1. The chip -/

/-- What the next half or byte on the bus is. -/
inductive Bus where
  | byte
  | upper
  -- the upper half is here
  | lower (high : UInt8)
deriving DecidableEq

/-- Which memory the address counter walks. -/
inductive Memory where
  | ddram
  | cgram
deriving DecidableEq

structure Chip where
  ddram : ℕ → UInt8
  cgram : ℕ → UInt8
  bus : Bus
  memory : Memory
  ac : ℕ
  -- the registers: number of lines, entry mode, display control, display shift
  two : Bool
  increment : Bool
  shifting : Bool
  on : Bool
  cursor : Bool
  blink : Bool
  shift : ℕ

/-- The blank. -/
def blank : UInt8 := 0x20

/-- The address after `a`: two lines of 40 cells, or one of 80. -/
def next (two : Bool) (a : ℕ) : ℕ :=
  if two then if a = 0x27 then 0x40 else if a = 0x67 then 0 else a + 1
  else if a = 0x4F then 0 else a + 1

/-- The address before `a`. -/
def prev (two : Bool) (a : ℕ) : ℕ :=
  if two then if a = 0x40 then 0x27 else if a = 0 then 0x67 else a - 1
  else if a = 0 then 0x4F else a - 1

/-- The address counter one further, or one back. -/
def Chip.move (c : Chip) (forward : Bool) : ℕ :=
  match c.memory with
  | .ddram => if forward then next c.two c.ac else prev c.two c.ac
  | .cgram => (c.ac + if forward then 1 else 63) % 64

/-- The length of the ring a line is shifted in. -/
def Chip.ring (c : Chip) : ℕ := if c.two then 40 else 80

/-- An instruction: the highest bit that is set says which. -/
def Chip.instruct (c : Chip) (byte : UInt8) : Chip :=
  let n := byte.toNat
  if 0x80 ≤ n then { c with memory := .ddram, ac := n - 0x80 }
  else if 0x40 ≤ n then { c with memory := .cgram, ac := n - 0x40 }
  -- function set
  else if 0x20 ≤ n then { c with bus := if n.testBit 4 then .byte else .upper, two := n.testBit 3 }
  -- cursor or display shift
  else if 0x10 ≤ n then
    if n.testBit 3 then
      { c with shift := (c.shift + if n.testBit 2 then c.ring - 1 else 1) % c.ring }
    else { c with ac := c.move (n.testBit 2) }
  else if 0x08 ≤ n then { c with on := n.testBit 2, cursor := n.testBit 1, blink := n.testBit 0 }
  else if 0x04 ≤ n then { c with increment := n.testBit 1, shifting := n.testBit 0 }
  -- return home
  else if 0x02 ≤ n then { c with memory := .ddram, ac := 0, shift := 0 }
  else if n = 0x01 then
    { c with ddram := fun _ => blank, memory := .ddram, ac := 0, shift := 0, increment := true }
  else c

/-- A byte of data. -/
def Chip.store (c : Chip) (byte : UInt8) : Chip :=
  match c.memory with
  | .ddram =>
      { c with
        ddram := Function.update c.ddram c.ac byte
        ac := c.move c.increment
        shift := if c.shifting then (c.shift + if c.increment then 1 else c.ring - 1) % c.ring
          else c.shift }
  | .cgram => { c with cgram := Function.update c.cgram c.ac byte, ac := c.move c.increment }

/-- A byte, as the register select line says. -/
def Chip.execute (c : Chip) (rs : Bool) (byte : UInt8) : Chip :=
  if rs then c.store byte else c.instruct byte

/-- The falling edge of the enable line, with the eight lines of the bus. -/
def Chip.latch (c : Chip) (rs : Bool) (db : UInt8) : Chip :=
  match c.bus with
  | .byte => c.execute rs db
  | .upper => { c with bus := .lower (db >>> 4) }
  | .lower high => Chip.execute { c with bus := .upper } rs ((high <<< 4) ||| (db >>> 4))

/-- The cell `x` to the right of where a line of the display begins. -/
def Chip.glass (c : Chip) (start x : ℕ) : UInt8 :=
  if c.on then
    if c.two then
      -- the two halves of the memory are shifted each in itself
      let line := if start < 0x40 then 0 else 0x40
      c.ddram (line + (start - line + x + c.shift) % 40)
    else c.ddram ((start + x + c.shift) % 80)
  else blank

/-! ## 2. The bus -/

/-- What holds of the 256 bytes one by one. The kernel goes through them, so it
is for statements that compute. -/
theorem forall_byte {P : UInt8 → Prop} (h : ∀ i : Fin 256, P (UInt8.ofNat i)) (b : UInt8) :
    P b := by
  simpa using h ⟨b.toNat, b.toNat_lt⟩

/-- A wide bus takes a whole byte at each edge. -/
theorem latch_byte {c : Chip} (h : c.bus = .byte) (rs : Bool) (db : UInt8) :
    c.latch rs db = c.execute rs db := by
  simp only [Chip.latch, h]

/-- Two halves make a byte. What stands on the four lower lines meanwhile does
not matter. -/
theorem latch_halves {c : Chip} (h : c.bus = .upper) (rs : Bool) {byte upper lower : UInt8}
    (hupper : upper >>> 4 = byte >>> 4) (hlower : lower >>> 4 = byte &&& 0x0F) :
    (c.latch rs upper).latch rs lower = c.execute rs byte := by
  have hjoin : ∀ b : UInt8, ((b >>> 4) <<< 4) ||| (b &&& 0x0F) = b :=
    forall_byte (by decide +kernel)
  have hself : { c with bus := .upper } = c := by rw [← h]
  simp only [Chip.latch, h, hupper, hlower, hjoin, hself]

/-- A function set in the upper half of the lines. -/
def IsWide (db : UInt8) : Prop := db >>> 4 = 3

/-- A byte with the upper half of a wide function set is one, whatever its lower
half. So half a command is enough, when the lower lines are not connected. -/
theorem instruct_wide {byte : UInt8} (h : byte >>> 4 = 3) (c : Chip) :
    (c.instruct byte).bus = .byte := by
  have hall : ∀ b : UInt8, b >>> 4 = 3 → ¬ 0x80 ≤ b.toNat ∧ ¬ 0x40 ≤ b.toNat ∧ 0x20 ≤ b.toNat
      ∧ b.toNat.testBit 4 = true := forall_byte (by decide +kernel)
  obtain ⟨h1, h2, h3, h4⟩ := hall byte h
  simp only [Chip.instruct, if_neg h1, if_neg h2, if_pos h3, h4, if_true]

/-- One with the upper half of a narrow function set makes the bus narrow. -/
theorem instruct_narrow {byte : UInt8} (h : byte >>> 4 = 2) (c : Chip) :
    (c.instruct byte).bus = .upper := by
  have hall : ∀ b : UInt8, b >>> 4 = 2 → ¬ 0x80 ≤ b.toNat ∧ ¬ 0x40 ≤ b.toNat ∧ 0x20 ≤ b.toNat
      ∧ b.toNat.testBit 4 = false := forall_byte (by decide +kernel)
  obtain ⟨h1, h2, h3, h4⟩ := hall byte h
  simp [Chip.instruct, h1, h2, h3, h4]

/-- No instruction leaves half a byte behind: the bus is wide afterwards, or
narrow and between two bytes. -/
theorem instruct_bus {c : Chip} (h : c.bus = .upper) (byte : UInt8) :
    (c.instruct byte).bus = .byte ∨ (c.instruct byte).bus = .upper := by
  unfold Chip.instruct
  simp only
  split_ifs <;> first
    | exact Or.inl rfl
    | exact Or.inr rfl
    | exact Or.inr h

theorem latch_wide_byte {c : Chip} (h : c.bus = .byte) {db : UInt8} (hdb : IsWide db) :
    (c.latch false db).bus = .byte := by
  rw [latch_byte h]
  exact instruct_wide hdb c

/-- Narrow and between two bytes: two of them are the two halves of one. -/
theorem latch_wide_pair {c : Chip} (h : c.bus = .upper) {db db' : UInt8} (hdb : IsWide db)
    (hdb' : IsWide db') :
    ((c.latch false db).latch false db').bus = .byte := by
  have hfirst : c.latch false db = { c with bus := .lower 3 } := by
    simp only [Chip.latch, h]
    rw [hdb]
  have hboth : ((3 : UInt8) <<< 4 ||| db' >>> 4) >>> 4 = 3 := by
    rw [hdb']
    rfl
  rw [hfirst]
  exact instruct_wide hboth _

/-- **Three wide function sets make the bus wide**, from whatever state: whole
bytes, or between two of them, or between the halves of one. -/
theorem resync (c : Chip) {db₁ db₂ db₃ : UInt8} (h₁ : IsWide db₁) (h₂ : IsWide db₂)
    (h₃ : IsWide db₃) :
    (((c.latch false db₁).latch false db₂).latch false db₃).bus = .byte := by
  cases hbus : c.bus with
  | byte => exact latch_wide_byte (latch_wide_byte (latch_wide_byte hbus h₁) h₂) h₃
  | upper => exact latch_wide_byte (latch_wide_pair hbus h₁ h₂) h₃
  | lower high =>
      -- the first one completes some other instruction
      have hfirst : (c.latch false db₁).bus = .byte ∨ (c.latch false db₁).bus = .upper := by
        simp only [Chip.latch, hbus, Chip.execute, Bool.false_eq_true, if_false]
        exact instruct_bus rfl _
      rcases hfirst with hb | hu
      · exact latch_wide_byte (latch_wide_byte hb h₂) h₃
      · exact latch_wide_pair hu h₂ h₃

/-! ## 3. The bench

The chip on the pins of a computer. With four wires the lower lines of the bus are not
connected, and read as anything. -/

/-- A pin is set to a level. -/
abbrev Write : Type := ℕ × Bool

/-- The pins on the lines: register select, enable, and the upper lines of the
bus, DB7 last. -/
structure Wires where
  rs : ℕ
  e : ℕ
  db : List ℕ

/-- The pins, the chip, and how many edges it has seen. -/
structure Bench where
  level : ℕ → Bool
  chip : Chip
  edges : ℕ

/-- The lowest `n` bits, the lowest first. -/
def lowest : ℕ → UInt8 → List Bool
  | 0, _ => []
  | n + 1, byte => decide (byte &&& 1 ≠ 0) :: lowest n (byte >>> 1)

/-- The byte with these bits. -/
def ofBits : List Bool → UInt8
  | [] => 0
  | bit :: bits => (ofBits bits <<< 1) ||| (if bit then 1 else 0)

theorem ofBits_lowest (byte : UInt8) : ofBits (lowest 8 byte) = byte := by
  have hall : ∀ b : UInt8, ofBits (lowest 8 b) = b := forall_byte (by decide +kernel)
  exact hall byte

/-- Four bits on the upper lines, and anything on the lower ones. -/
theorem ofBits_upper (noise byte : UInt8) :
    ofBits (lowest 4 noise ++ lowest 4 byte) >>> 4 = byte &&& 0x0F := by
  -- only the lowest four bits of the two bytes are looked at
  have hlow : ∀ b : UInt8, lowest 4 b = lowest 4 (b &&& 0x0F) := forall_byte (by decide +kernel)
  have hall : ∀ m n : Fin 16, ofBits (lowest 4 (UInt8.ofNat m) ++ lowest 4 (UInt8.ofNat n)) >>> 4
      = UInt8.ofNat n := by
    decide +kernel
  have hlt : ∀ b : UInt8, (b &&& 0x0F).toNat < 16 := forall_byte (by decide +kernel)
  rw [hlow noise, hlow byte]
  simpa using hall ⟨_, hlt noise⟩ ⟨_, hlt byte⟩

variable (w : Wires) (noise : ℕ → UInt8)

/-- What stands on the bus. -/
def Wires.bus (level : ℕ → Bool) (noise : UInt8) : UInt8 :=
  ofBits (lowest (8 - w.db.length) noise ++ w.db.map level)

/-- A pin is set; the enable line going down is an edge. -/
def Bench.write (b : Bench) (x : Write) : Bench :=
  let level := Function.update b.level x.1 x.2
  if x.1 = w.e ∧ b.level w.e = true ∧ x.2 = false then
    ⟨level, b.chip.latch (level w.rs) (w.bus level (noise b.edges)), b.edges + 1⟩
  else { b with level := level }

def Bench.run (b : Bench) (writes : List Write) : Bench := writes.foldl (Bench.write w noise) b

theorem run_append (b : Bench) (as bs : List Write) :
    b.run w noise (as ++ bs) = (b.run w noise as).run w noise bs := List.foldl_append ..

/-- The enable line up and down: one edge, and the pins as they were. The chip
takes what is on the lines at the falling edge. -/
theorem run_strobe {b : Bench} (h : b.level w.e = false) :
    b.run w noise [(w.e, true), (w.e, false)]
      = ⟨b.level, b.chip.latch (b.level w.rs) (w.bus b.level (noise b.edges)), b.edges + 1⟩ := by
  have hback : Function.update (Function.update b.level w.e true) w.e false = b.level := by
    rw [Function.update_idem, ← h, Function.update_eq_self]
  simp [Bench.run, Bench.write, hback]

/-- Pins that are not the enable line: nothing is latched, each shows the level
it was given, and all others are as they were. -/
theorem run_levels (pins : List ℕ) : ∀ {b : Bench} (levels : List Bool), w.e ∉ pins → pins.Nodup →
    levels.length = pins.length →
    (b.run w noise (pins.zip levels)).chip = b.chip
      ∧ (b.run w noise (pins.zip levels)).edges = b.edges
      ∧ (∀ p ∉ pins, (b.run w noise (pins.zip levels)).level p = b.level p)
      ∧ pins.map (b.run w noise (pins.zip levels)).level = levels := by
  induction pins with
  | nil =>
      intro b levels _ _ hlen
      rw [List.length_nil, List.length_eq_zero_iff] at hlen
      subst hlen
      exact ⟨rfl, rfl, fun _ _ => rfl, rfl⟩
  | cons p pins ih =>
      intro b levels he hnd hlen
      obtain ⟨v, levels, rfl⟩ := List.exists_cons_of_length_eq_add_one hlen
      rw [List.mem_cons, not_or] at he
      rw [List.nodup_cons] at hnd
      have hp : p ≠ w.e := fun h => he.1 h.symm
      have hfirst : b.write w noise (p, v) = { b with level := Function.update b.level p v } := by
        simp [Bench.write, hp]
      obtain ⟨hchip, hedges, hrest, hmap⟩ := ih (b := b.write w noise (p, v)) levels he.2 hnd.2
        (by simpa using hlen)
      have hrun : b.run w noise ((p :: pins).zip (v :: levels))
          = (b.write w noise (p, v)).run w noise (pins.zip levels) := rfl
      rw [hrun]
      refine ⟨by rw [hchip, hfirst], by rw [hedges, hfirst], ?_, ?_⟩
      · intro q hq
        rw [List.mem_cons, not_or] at hq
        rw [hrest q hq.2, hfirst]
        exact Function.update_of_ne hq.1 ..
      · rw [List.map_cons, hmap, hrest p hnd.1, hfirst]
        simp

/-! ## 4. Writes with a pre- and a postcondition -/

/-- From any bench with the enable line down, and a register select line and a
chip with `P`, the writes lead to one with `Q`. -/
def Triple (P : Bool → Chip → Prop) (writes : List Write) (Q : Bool → Chip → Prop) : Prop :=
  ∀ b : Bench, b.level w.e = false → P (b.level w.rs) b.chip →
    (b.run w noise writes).level w.e = false
      ∧ Q ((b.run w noise writes).level w.rs) (b.run w noise writes).chip

variable {w noise} {P Q R : Bool → Chip → Prop}

theorem Triple.nil : Triple w noise P [] P := fun _ he hP => ⟨he, hP⟩

/-- In sequence: what the first writes leave is what the second count on. -/
theorem Triple.append {as bs : List Write} (ha : Triple w noise P as Q)
    (hb : Triple w noise Q bs R) :
    Triple w noise P (as ++ bs) R := by
  intro b he hP
  obtain ⟨he', hQ⟩ := ha b he hP
  rw [run_append]
  exact hb _ he' hQ

/-- Less may be claimed, and more may be asked for. -/
theorem Triple.mono {P' Q' : Bool → Chip → Prop} {writes : List Write}
    (h : Triple w noise P writes Q)
    (hP : ∀ rs c, P' rs c → P rs c) (hQ : ∀ rs c, Q rs c → Q' rs c) :
    Triple w noise P' writes Q' := by
  intro b he hP'
  obtain ⟨he', hQ'⟩ := h b he (hP _ _ hP')
  exact ⟨he', hQ _ _ hQ'⟩

/-- The same for every item of a list, with one condition kept all the way. -/
theorem Triple.flatMap {α : Type*} {f : α → List Write} (as : List α)
    (h : ∀ a ∈ as, Triple w noise P (f a) P) :
    Triple w noise P (as.flatMap f) P := by
  induction as with
  | nil => exact Triple.nil
  | cons a as ih =>
      rw [List.flatMap_cons]
      exact (h a (List.mem_cons_self ..)).append (ih fun a ha => h a (List.mem_cons_of_mem _ ha))

/-- The register select line is set, and nothing happens to the chip yet. -/
theorem Triple.select (hrs : w.rs ≠ w.e) (rs : Bool) :
    Triple w noise (fun _ c => Q rs c) [(w.rs, rs)] Q := by
  intro b he hQ
  have hone : b.run w noise [(w.rs, rs)] = { b with level := Function.update b.level w.rs rs } := by
    simp [Bench.run, Bench.write, hrs]
  rw [hone]
  exact ⟨(Function.update_of_ne hrs.symm ..).trans he, by simpa using hQ⟩

/-- The lines of the bus are set, and the chip sees them. The precondition asks
for every noise on the lines that are not connected. -/
theorem Triple.latch (hnd : (w.rs :: w.e :: w.db).Nodup) {levels : List Bool}
    (hlen : levels.length = w.db.length) :
    Triple w noise (fun rs c => ∀ noise,
      Q rs (c.latch rs (ofBits (lowest (8 - w.db.length) noise ++ levels))))
      (w.db.zip levels ++ [(w.e, true), (w.e, false)]) Q := by
  simp only [List.nodup_cons, List.mem_cons, not_or] at hnd
  obtain ⟨⟨_, hrs⟩, he, hdb⟩ := hnd
  intro b hidle hQ
  obtain ⟨hchip, _, hrest, hmap⟩ := run_levels w noise w.db (b := b) levels he hdb hlen
  have hidle' : (b.run w noise (w.db.zip levels)).level w.e = false := (hrest _ he).trans hidle
  rw [run_append, run_strobe w noise hidle']
  refine ⟨hidle', ?_⟩
  simp only [Wires.bus, hmap, hchip, hrest _ hrs]
  exact hQ _

end AutoMag.Hd44780
