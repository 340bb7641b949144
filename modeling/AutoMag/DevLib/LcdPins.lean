/-
`DevLib/LcdPins.lean` -- `lcd.c` down to the pins.

`DevLib/Lcd.lean` has the driver as the cells it means to write. Here it is as the
`digitalWrite` calls it makes. Delays and `pinMode` are left out, and so is the table of
displays: a function gets the `lcdDataStruct` that stands at `fd`.

Then, what the calls do to a controller on those pins (`Lib/Hd44780.lean`): a byte gets through
in one piece or two (`triple_send`), and the commands are the instructions they are meant for.
-/
import AutoMag.DevLib.Lcd
import AutoMag.Lib.Hd44780
import AutoMag.Lib.Machine

set_option autoImplicit false

namespace AutoMag.DevLib.Pins

open AutoMag.CMemory AutoMag.Hd44780 AutoMag.Machine

/-! ## 1. The driver -/

def LCD_CLEAR : UInt8 := 0x01
def LCD_HOME : UInt8 := 0x02
def LCD_ENTRY : UInt8 := 0x04
def LCD_CTRL : UInt8 := 0x08
def LCD_CDSHIFT : UInt8 := 0x10
def LCD_FUNC : UInt8 := 0x20
def LCD_CGRAM : UInt8 := 0x40
def LCD_DGRAM : ℕ := 0x80

def LCD_ENTRY_ID : UInt8 := 0x02

def LCD_BLINK_CTRL : UInt8 := 0x01
def LCD_CURSOR_CTRL : UInt8 := 0x02
def LCD_DISPLAY_CTRL : UInt8 := 0x04

def LCD_FUNC_N : UInt8 := 0x08
def LCD_FUNC_DL : UInt8 := 0x10

def LCD_CDSHIFT_RL : UInt8 := 0x04

/-- `struct lcdDataStruct`. -/
structure LcdData where
  bits : ℕ
  rows : ℕ
  cols : ℕ
  rsPin : ℕ
  strbPin : ℕ
  dataPins : List ℕ
  cx : ℕ := 0
  cy : ℕ := 0

/-- A display and the static `lcdControl`, which all displays share. -/
structure Driver where
  lcd : LcdData
  lcdControl : UInt8

/-- `rowOff`; past its end there is no telling. -/
def rowOff (y : ℕ) : ℕ := [0x00, 0x40, 0x14, 0x54].getD y 0

def strobe (lcd : LcdData) : List Write := [(lcd.strbPin, true), (lcd.strbPin, false)]

/-- The loop over the data pins. -/
def write_bits : List ℕ → UInt8 → List Write
  | [], _ => []
  | pin :: pins, data => (pin, decide (data &&& 1 ≠ 0)) :: write_bits pins (data >>> 1)

def sendDataCmd (lcd : LcdData) (data : UInt8) : List Write :=
  if lcd.bits = 4 then
    write_bits (lcd.dataPins.take 4) ((data >>> 4) &&& 0x0F) ++ strobe lcd
      ++ (write_bits (lcd.dataPins.take 4) (data &&& 0x0F) ++ strobe lcd)
  else write_bits (lcd.dataPins.take 8) data ++ strobe lcd

def putCommand (lcd : LcdData) (command : UInt8) : List Write :=
  [(lcd.rsPin, false)] ++ sendDataCmd lcd command

def put4Command (lcd : LcdData) (command : UInt8) : List Write :=
  [(lcd.rsPin, false)] ++ (write_bits (lcd.dataPins.take 4) command ++ strobe lcd)

def lcdHome (d : Driver) : Driver × List Write :=
  ({ d with lcd := { d.lcd with cx := 0, cy := 0 } }, putCommand d.lcd LCD_HOME)

def lcdClear (d : Driver) : Driver × List Write :=
  ({ d with lcd := { d.lcd with cx := 0, cy := 0 } },
    putCommand d.lcd LCD_CLEAR ++ putCommand d.lcd LCD_HOME)

/-- The three functions that switch a bit of the control register. -/
def control (bit : UInt8) (d : Driver) (state : Bool) : Driver × List Write :=
  let lcdControl := if state then d.lcdControl ||| bit else d.lcdControl &&& ~~~bit
  ({ d with lcdControl := lcdControl }, putCommand d.lcd (LCD_CTRL ||| lcdControl))

def lcdDisplay : Driver → Bool → Driver × List Write := control LCD_DISPLAY_CTRL
def lcdCursor : Driver → Bool → Driver × List Write := control LCD_CURSOR_CTRL
def lcdCursorBlink : Driver → Bool → Driver × List Write := control LCD_BLINK_CTRL

/-- `x + (LCD_DGRAM | rowOff [y])`, as an `unsigned char`. -/
def address (x y : ℕ) : UInt8 := UInt8.ofNat (x + (LCD_DGRAM ||| rowOff y))

/-- `lcdPosition`: ignores invalid locations. -/
def lcdPosition (d : Driver) (x y : ℤ) : Driver × List Write :=
  if d.lcd.cols < x ∨ x < 0 then (d, [])
  else if d.lcd.rows < y ∨ y < 0 then (d, [])
  else
    ({ d with lcd := { d.lcd with cx := x.toNat, cy := y.toNat } },
      putCommand d.lcd (address x.toNat y.toNat))

/-- `lcdCharDef`: the eight rows of a new character. -/
def lcdCharDef (d : Driver) (index : UInt8) (data : List UInt8) : Driver × List Write :=
  (d, putCommand d.lcd (LCD_CGRAM ||| ((index &&& 7) <<< 3))
    ++ ([(d.lcd.rsPin, true)] ++ (data.take 8).flatMap (sendDataCmd d.lcd)))

/-- `lcdPutchar`: a very simple terminal, with line wrapping but no
scrolling. -/
def lcdPutchar (d : Driver) (data : UInt8) : Driver × List Write :=
  let writes := [(d.lcd.rsPin, true)] ++ sendDataCmd d.lcd data
  if d.lcd.cx + 1 = d.lcd.cols then
    let cy := if d.lcd.cy + 1 = d.lcd.rows then 0 else d.lcd.cy + 1
    let lcd := { d.lcd with cx := 0, cy := cy }
    ({ d with lcd := lcd }, writes ++ putCommand lcd (address 0 cy))
  else ({ d with lcd := { d.lcd with cx := d.lcd.cx + 1 } }, writes)

/-- `lcdPuts`, which stops at the NUL. -/
def lcdPuts (d : Driver) (string : List UInt8) : Driver × List Write :=
  feed lcdPutchar d (string.takeWhile (· ≠ 0))

/-- `lcdPrintf` of a formatted text: `vsnprintf` leaves room for 1022
characters. -/
def lcdPrintf (d : Driver) (message : List UInt8) : Driver × List Write :=
  lcdPuts d (message.take 1022 ++ [0])

/-- The rest of the initialisation sequence. -/
def finish (d : Driver) : Driver × List Write :=
  let d₁ := lcdDisplay d true
  let d₂ := lcdCursor d₁.1 false
  let d₃ := lcdCursorBlink d₂.1 false
  let d₄ := lcdClear d₃.1
  (d₄.1, d₁.2 ++ (d₂.2 ++ (d₃.2 ++ (d₄.2 ++ (putCommand d₄.1.lcd (LCD_ENTRY ||| LCD_ENTRY_ID)
    ++ putCommand d₄.1.lcd (LCD_CDSHIFT ||| LCD_CDSHIFT_RL))))))

/-- The function sets: three for eight bits, and with four wires a fourth one,
in halves while `lcd->bits` is still 8. -/
def functions (lcd : LcdData) (bits : ℕ) : List Write :=
  let wide := LCD_FUNC ||| LCD_FUNC_DL
  if bits = 4 then
    put4Command lcd (wide >>> 4) ++ (put4Command lcd (wide >>> 4)
      ++ (put4Command lcd (wide >>> 4) ++ put4Command lcd (LCD_FUNC >>> 4)))
  else putCommand lcd wide ++ (putCommand lcd wide ++ putCommand lcd wide)

/-- `lcdInit`; `none` is -1. -/
def lcdInit (lcdControl : UInt8) (rows cols : ℤ) (bits : ℕ) (rs strb : ℕ) (dataPins : List ℕ) :
    Option (Driver × List Write) :=
  -- simple sanity checks
  if ¬ (bits = 4 ∨ bits = 8) then none
  else if rows < 0 ∨ 20 < rows then none
  else if cols < 0 ∨ 20 < cols then none
  else
    let lcd : LcdData := ⟨8, rows.toNat, cols.toNat, rs, strb, dataPins, 0, 0⟩
    let low := [(rs, false), (strb, false)] ++ (dataPins.take bits).map fun pin => (pin, false)
    let func := if bits = 4 then LCD_FUNC else LCD_FUNC ||| LCD_FUNC_DL
    let lcd' := { lcd with bits := bits }
    let lines := if 1 < rows then putCommand lcd' (func ||| LCD_FUNC_N) else []
    let r := finish ⟨lcd', lcdControl⟩
    some (r.1, low ++ (functions lcd bits ++ (lines ++ r.2)))

/-! ## 2. A byte on its way -/

/-- The display is connected to the pins the driver was told, each line to a pin
of its own. -/
structure Wired (w : Wires) (lcd : LcdData) : Prop where
  rs : lcd.rsPin = w.rs
  e : lcd.strbPin = w.e
  db : lcd.dataPins.take lcd.bits = w.db
  length : w.db.length = lcd.bits
  bits : lcd.bits = 4 ∨ lcd.bits = 8
  nodup : (w.rs :: w.e :: w.db).Nodup

/-- The width of the bus the driver counts on. -/
def width (bits : ℕ) : Bus := if bits = 4 then .upper else .byte

/-- The loop over the data pins is the bits of the byte, lowest first, one to a
pin. -/
theorem write_bits_eq (pins : List ℕ) :
    ∀ data : UInt8, write_bits pins data = pins.zip (lowest pins.length data) := by
  induction pins with
  | nil => exact fun _ => rfl
  | cons pin pins ih =>
      intro data
      rw [write_bits, ih]
      rfl

theorem length_lowest (n : ℕ) : ∀ byte : UInt8, (lowest n byte).length = n := by
  induction n with
  | zero => exact fun _ => rfl
  | succ n ih =>
      intro byte
      rw [lowest, List.length_cons, ih]

section Delivery

variable {w : Wires} {noise : ℕ → UInt8} {lcd : LcdData} {Q : Bool → Chip → Prop} (h : Wired w lcd)
include h

/-- The two control lines are different pins. -/
theorem Wired.select_ne : w.rs ≠ w.e := by
  have hnd := h.nodup
  simp only [List.nodup_cons, List.mem_cons, not_or] at hnd
  exact hnd.1.1

omit h in
/-- The lines set bit by bit, and a strobe. The controller latches when the
enable line falls; what the pins that are not connected show then is
anything. -/
theorem triple_bits (he : lcd.strbPin = w.e) (hnd : (w.rs :: w.e :: w.db).Nodup) (data : UInt8) :
    Triple w noise (fun rs c => ∀ noise, Q rs (c.latch rs (ofBits (lowest (8 - w.db.length) noise
        ++ lowest w.db.length data))))
      (write_bits w.db data ++ strobe lcd) Q := by
  rw [write_bits_eq, strobe, he]
  exact Triple.latch hnd (length_lowest _ _)

/-- **A byte gets through**, in one piece or two. With four lines the upper half
goes first, and the controller puts the two together. -/
theorem triple_send (data : UInt8) :
    Triple w noise (fun rs c => c.bus = width lcd.bits ∧ Q rs (c.execute rs data))
      (sendDataCmd lcd data) Q := by
  have hdb := h.db
  have hlen := h.length
  rcases h.bits with hbits | hbits
  · rw [hbits] at hdb hlen
    rw [sendDataCmd, if_pos hbits, hdb]
    apply Triple.mono ((triple_bits h.e h.nodup (data >>> 4 &&& 0x0F)).append
      (triple_bits h.e h.nodup (data &&& 0x0F))) _ fun _ _ hQ => hQ
    rintro rs c ⟨hbus, hQ⟩ upper lower
    have hhigh : ∀ b : UInt8, b >>> 4 &&& (0x0F : UInt8) &&& (0x0F : UInt8) = b >>> 4 :=
      forall_byte (by decide +kernel)
    have hlow : ∀ b : UInt8, (b &&& 0x0F) &&& 0x0F = b &&& 0x0F := forall_byte (by decide +kernel)
    have hnarrow : c.bus = .upper := by rw [hbus, width, if_pos hbits]
    rw [hlen, latch_halves hnarrow rs ((ofBits_upper _ _).trans (hhigh data))
      ((ofBits_upper _ _).trans (hlow data))]
    exact hQ
  · rw [hbits] at hdb hlen
    have hne : lcd.bits ≠ 4 := by omega
    rw [sendDataCmd, if_neg hne, hdb]
    apply Triple.mono (triple_bits h.e h.nodup data) _ fun _ _ hQ => hQ
    rintro rs c ⟨hbus, hQ⟩ noise
    have hwide : c.bus = .byte := by rw [hbus, width, if_neg hne]
    rw [hlen, latch_byte hwide]
    change Q rs (c.execute rs (ofBits (lowest 8 data)))
    rw [ofBits_lowest]
    exact hQ

/-- A command: the register select line is low when the strobe comes. -/
theorem triple_command (command : UInt8) :
    Triple w noise (fun _ c => c.bus = width lcd.bits ∧ Q false (c.instruct command))
      (putCommand lcd command) Q := by
  rw [putCommand, h.rs]
  exact (Triple.select h.select_ne false).append (triple_send h command)

/-- A character: it is high. -/
theorem triple_data (data : UInt8) :
    Triple w noise (fun _ c => c.bus = width lcd.bits ∧ Q true (c.store data))
      ([(lcd.rsPin, true)] ++ sendDataCmd lcd data) Q := by
  rw [h.rs]
  exact (Triple.select h.select_ne true).append (triple_send h data)

end Delivery

/-! ## 3. What the commands do -/

/-- What each command of the driver is to the controller. The codes are
constants, so these are computations. -/
theorem instruct_clear (c : Chip) : c.instruct LCD_CLEAR
    = { c with
        ddram := fun _ => Hd44780.blank, memory := .ddram, ac := 0, shift := 0,
        increment := true } := rfl

theorem instruct_home (c : Chip) :
    c.instruct LCD_HOME = { c with memory := .ddram, ac := 0, shift := 0 } := rfl

theorem instruct_entry (c : Chip) :
    c.instruct (LCD_ENTRY ||| LCD_ENTRY_ID) = { c with increment := true, shifting := false } := rfl

/-- The address counter moves, as if a character had been written. This is the
last command of `lcdInit`, and the driver does not count it. -/
theorem instruct_cdshift (c : Chip) :
    c.instruct (LCD_CDSHIFT ||| LCD_CDSHIFT_RL) = { c with ac := c.move true } := rfl

/-- The bit of the control register that turns the display on. -/
def lit (lcdControl : UInt8) : Bool := decide (lcdControl &&& LCD_DISPLAY_CTRL ≠ 0)

/-- The control register: whether the display is lit is one of its three bits.
The cursor and its blinking do not show in the cells. -/
theorem instruct_ctrl (c : Chip) {lcdControl : UInt8} (h : lcdControl ≤ 7) :
    ∃ cursor blink, c.instruct (LCD_CTRL ||| lcdControl)
      = { c with on := lit lcdControl, cursor := cursor, blink := blink } := by
  have hall : ∀ b : UInt8, b ≤ 7 → ¬ 0x80 ≤ (LCD_CTRL ||| b).toNat ∧ ¬ 0x40 ≤ (LCD_CTRL ||| b).toNat
      ∧ ¬ 0x20 ≤ (LCD_CTRL ||| b).toNat ∧ ¬ 0x10 ≤ (LCD_CTRL ||| b).toNat
        ∧ 0x08 ≤ (LCD_CTRL ||| b).toNat
      ∧ (LCD_CTRL ||| b).toNat.testBit 2 = lit b := forall_byte (by decide +kernel)
  obtain ⟨h1, h2, h3, h4, h5, h6⟩ := hall lcdControl h
  refine ⟨(LCD_CTRL ||| lcdControl).toNat.testBit 1, (LCD_CTRL ||| lcdControl).toNat.testBit 0, ?_⟩
  simp only [Chip.instruct, if_neg h1, if_neg h2, if_neg h3, if_neg h4, if_pos h5, h6]

/-- The function set with two lines, at the width the bus already has. -/
theorem instruct_lines {bits : ℕ} (hbits : bits = 4 ∨ bits = 8) (c : Chip) :
    c.instruct ((if bits = 4 then LCD_FUNC else LCD_FUNC ||| LCD_FUNC_DL) ||| LCD_FUNC_N)
      = { c with bus := width bits, two := true } := by
  rcases hbits with rfl | rfl <;> rfl

/-- The address of a cell of a display up to four by twenty: the row's own
offset and the column. -/
theorem instruct_address (c : Chip) {x y : ℕ} (hx : x < 20) (hy : y < 4) :
    c.instruct (address x y) = { c with memory := .ddram, ac := rowOff y + x } := by
  have hall : ∀ (x : Fin 20) (y : Fin 4), (address x y).toNat = 0x80 + (rowOff y + x) := by
    decide +kernel
  have hn : (address x y).toNat = 0x80 + (rowOff y + x) := hall ⟨x, hx⟩ ⟨y, hy⟩
  have hle : 0x80 ≤ (address x y).toNat := by omega
  have hac : (address x y).toNat - 0x80 = rowOff y + x := by omega
  simp only [Chip.instruct, if_pos hle, hac]

/-- The address of a character's first row. It is in the other memory of the
controller, so the next character written would go there. -/
theorem instruct_cgram (c : Chip) (index : UInt8) :
    ∃ ac, c.instruct (LCD_CGRAM ||| ((index &&& 7) <<< 3))
      = { c with memory := .cgram, ac := ac } := by
  have hall : ∀ b : UInt8, ¬ 0x80 ≤ (LCD_CGRAM ||| ((b &&& 7) <<< 3)).toNat
      ∧ 0x40 ≤ (LCD_CGRAM ||| ((b &&& 7) <<< 3)).toNat := forall_byte (by decide +kernel)
  obtain ⟨h1, h2⟩ := hall index
  refine ⟨(LCD_CGRAM ||| ((index &&& 7) <<< 3)).toNat - 0x40, ?_⟩
  simp only [Chip.instruct, if_neg h1, if_pos h2]

/-- The cells of a display up to four by twenty have addresses of their own. The
offsets are 0x00, 0x40, 0x14 and 0x54, so rows of more than twenty would run
into each other. -/
theorem rowOff_inj {x x' y y' : ℕ} (hx : x < 20) (hx' : x' < 20) (hy : y < 4) (hy' : y' < 4)
    (h : rowOff y + x = rowOff y' + x') : x = x' ∧ y = y' := by
  have h1 : y = 0 ∨ y = 1 ∨ y = 2 ∨ y = 3 := by omega
  have h2 : y' = 0 ∨ y' = 1 ∨ y' = 2 ∨ y' = 3 := by omega
  rcases h1 with rfl | rfl | rfl | rfl <;> rcases h2 with rfl | rfl | rfl | rfl <;>
    simp [rowOff] at h <;> omega

/-- Inside a row the controller counts as the driver does. Only at the end of a
row do the two go different ways, and there the driver sets the address. -/
theorem next_rowOff {two : Bool} {x y : ℕ} (hx : x + 1 < 20) (hy : y < 4)
    (htwo : y = 0 ∨ two = true) :
    next two (rowOff y + x) = rowOff y + (x + 1) := by
  have hrow : y = 0 ∨ y = 1 ∨ y = 2 ∨ y = 3 := by omega
  have h27 : rowOff y + x ≠ 0x27 := by
    rcases hrow with rfl | rfl | rfl | rfl <;> simp [rowOff] <;> omega
  have h67 : rowOff y + x ≠ 0x67 := by
    rcases hrow with rfl | rfl | rfl | rfl <;> simp [rowOff] <;> omega
  rcases htwo with rfl | rfl
  · have h4f : rowOff 0 + x ≠ 0x4F := by
      simp [rowOff]
      omega
    simp only [next, if_neg h27, if_neg h67, if_neg h4f]
    split <;> omega
  · simp only [next, if_neg h27, if_neg h67, if_true]
    omega

end AutoMag.DevLib.Pins
