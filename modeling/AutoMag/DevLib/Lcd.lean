/-
`DevLib/Lcd.lean` -- the character display driver, `lcd.c` of wiringPi.

A display is its grid of cells, row after row, and the cursor the driver keeps in
`lcdDataStruct`. The pins and the controller's commands are left out; what is kept
is where the next character lands. Writing advances the cursor, wraps from the end
of a row to the next one and from the last row back to the first, and never clears
anything: a text replaces exactly the cells it covers (`lcdPuts_at`).
-/
import AutoMag.Lib.CMemory

set_option autoImplicit false

namespace AutoMag.DevLib

open AutoMag.CMemory

variable {rows cols : ℕ}

/-! ## The driver -/

/-- The blank, which `LCD_CLEAR` leaves in every cell. -/
def blank : UInt8 := 0x20

/-- A display of `rows` rows of `cols` cells, with the driver's `cx` and
`cy`. -/
structure Lcd (rows cols : ℕ) where
  cells : CArray (rows * cols)
  cx : ℕ
  cy : ℕ
deriving DecidableEq

/-- `lcdClear`. -/
def lcdClear (_ : Lcd rows cols) : Lcd rows cols where
  cells := CArray.fill (rows * cols) blank
  cx := 0
  cy := 0

/-- `lcdInit`, which ends in an `lcdClear`; `cells` is what the controller came
up with. -/
def lcdInit (cells : CArray (rows * cols)) : Lcd rows cols := lcdClear ⟨cells, 0, 0⟩

/-- `lcdPosition`. Invalid locations are ignored, but the first column and the
first row past the end are not among them. -/
def lcdPosition (lcd : Lcd rows cols) (x y : ℕ) : Lcd rows cols :=
  if cols < x then lcd
  else if rows < y then lcd
  else { lcd with cx := x, cy := y }

/-- The character on its way to the controller: a cell outside the grid is not
seen. -/
def sendData (lcd : Lcd rows cols) (data : UInt8) : Lcd rows cols :=
  if lcd.cx < cols ∧ lcd.cy < rows then
    { lcd with cells := lcd.cells.write (cols * lcd.cy + lcd.cx) [data] }
  else lcd

/-- The cursor after a character. -/
def advance (lcd : Lcd rows cols) : Lcd rows cols :=
  if lcd.cx + 1 = cols then
    { lcd with cx := 0, cy := if lcd.cy + 1 = rows then 0 else lcd.cy + 1 }
  else { lcd with cx := lcd.cx + 1 }

/-- `lcdPutchar`. -/
def lcdPutchar (lcd : Lcd rows cols) (data : UInt8) : Lcd rows cols :=
  advance (sendData lcd data)

/-- `lcdPuts`, which stops at the NUL. -/
def lcdPuts (lcd : Lcd rows cols) (string : List UInt8) : Lcd rows cols :=
  (string.takeWhile (· ≠ 0)).foldl lcdPutchar lcd

/-- What one row shows. -/
def Lcd.row (lcd : Lcd rows cols) (y : ℕ) : List UInt8 :=
  (lcd.cells.bytes.drop (cols * y)).take cols

/-! ## Programs of calls -/

/-- What a program calls the driver for. A program that uses the display is a
list of them, which is drawn here and put on the pins in
`DevLib/LcdGlass.lean`. -/
inductive Call where
  | home
  | clear
  | display (state : Bool)
  | cursor (state : Bool)
  | blink (state : Bool)
  | position (x y : ℤ)
  | charDef (index : UInt8) (data : List UInt8)
  | putchar (data : UInt8)
  | puts (string : List UInt8)
  | printf (message : List UInt8)

/-- The call on the grid. -/
def Call.draw (g : Lcd rows cols) : Call → Lcd rows cols
  | .home => { g with cx := 0, cy := 0 }
  | .clear => lcdClear g
  | .display _ | .cursor _ | .blink _ | .charDef _ _ => g
  | .position x y => if x < 0 ∨ y < 0 then g else lcdPosition g x.toNat y.toNat
  | .putchar data => lcdPutchar g data
  | .puts string => lcdPuts g string
  | .printf message => lcdPuts g (message.take 1022 ++ [0])

@[simp] theorem draw_clear (g : Lcd rows cols) : Call.clear.draw g = lcdClear g := rfl

@[simp] theorem draw_puts (g : Lcd rows cols) (string : List UInt8) :
    (Call.puts string).draw g = lcdPuts g string := rfl

@[simp] theorem draw_position (g : Lcd rows cols) (x y : ℕ) :
    (Call.position x y).draw g = lcdPosition g x y := by
  rw [Call.draw, if_neg (by omega), Int.toNat_natCast, Int.toNat_natCast]

/-! ## A text lands where the cursor is -/

/-- The display with the cursor on cell `p`, counted row after row. -/
def Lcd.at (cells : CArray (rows * cols)) (p : ℕ) : Lcd rows cols := ⟨cells, p % cols, p / cols⟩

/-- After `lcdInit` the cells are blank and the cursor is at the first, as far
as the driver's own counters go. -/
theorem lcdInit_at (cells : CArray (rows * cols)) :
    lcdInit cells = Lcd.at (CArray.fill (rows * cols) blank) 0 := by
  simp [lcdInit, lcdClear, Lcd.at]

/-- The start of a line. The driver takes `y` equal to `rows` as well, and so
does this. -/
theorem lcdPosition_at (cells : CArray (rows * cols)) (p y : ℕ) (hcols : 0 < cols)
    (hy : y ≤ rows) : lcdPosition (Lcd.at cells p) 0 y = Lcd.at cells (cols * y) := by
  simp only [lcdPosition, Lcd.at]
  rw [if_neg (by omega), if_neg (by omega), Nat.mul_mod_right, Nat.mul_div_cancel_left _ hcols]

/-- A character is written into the cell at the cursor, which stays. -/
theorem sendData_at (cells : CArray (rows * cols)) (p : ℕ) (b : UInt8) (hp : p < rows * cols) :
    sendData (Lcd.at cells p) b = Lcd.at (cells.write p [b]) p := by
  have hcols : 0 < cols := Nat.pos_of_mul_pos_left (by omega : 0 < rows * cols)
  have hx : p % cols < cols := Nat.mod_lt _ hcols
  have hy : p / cols < rows := Nat.div_lt_of_lt_mul (by rwa [Nat.mul_comm])
  have hin : (Lcd.at cells p).cx < cols ∧ (Lcd.at cells p).cy < rows := ⟨hx, hy⟩
  rw [sendData, if_pos hin]
  simp only [Lcd.at, Nat.div_add_mod]

/-- One column on, one row on, or back to the first cell: in row-after-row
counting all three are the successor. The rows of the grid follow each other,
which the addresses of the controller do not. -/
theorem advance_at (cells : CArray (rows * cols)) (p : ℕ) (hp : p < rows * cols) :
    advance (Lcd.at cells p) = Lcd.at cells ((p + 1) % (rows * cols)) := by
  have hcols : 0 < cols := Nat.pos_of_mul_pos_left (by omega : 0 < rows * cols)
  have hx : p % cols < cols := Nat.mod_lt _ hcols
  have hy : p / cols < rows := Nat.div_lt_of_lt_mul (by rwa [Nat.mul_comm])
  have hsplit : cols * (p / cols) + p % cols = p := Nat.div_add_mod p cols
  have hcx : (Lcd.at cells p).cx = p % cols := rfl
  have hcy : (Lcd.at cells p).cy = p / cols := rfl
  -- the end of a row, and then perhaps of the last one; or somewhere inside a row
  by_cases hend : p % cols + 1 = cols
  · rw [advance, if_pos (hcx ▸ hend)]
    have hnext : p + 1 = cols * (p / cols + 1) := by
      rw [Nat.mul_add, Nat.mul_one]
      omega
    by_cases hlast : p / cols + 1 = rows
    · have hwrap : (p + 1) % (rows * cols) = 0 := by
        rw [hnext, hlast, Nat.mul_comm, Nat.mod_self]
      rw [if_pos (hcy ▸ hlast), hwrap]
      simp only [Lcd.at, Nat.zero_mod, Nat.zero_div]
    · have hlt : p + 1 < rows * cols := by
        rw [hnext, Nat.mul_comm rows]
        exact Nat.mul_lt_mul_of_pos_left (by omega) hcols
      rw [if_neg (hcy ▸ hlast), Nat.mod_eq_of_lt hlt, hnext]
      simp only [Lcd.at, Nat.mul_mod_right, Nat.mul_div_cancel_left _ hcols]
  · rw [advance, if_neg (hcx ▸ hend)]
    have hlt : p + 1 < rows * cols := by
      have hle : cols * (p / cols + 1) ≤ cols * rows := Nat.mul_le_mul_left _ hy
      rw [Nat.mul_add, Nat.mul_one, Nat.mul_comm cols rows] at hle
      omega
    have hnext : p + 1 = p % cols + 1 + cols * (p / cols) := by omega
    have hlow : p % cols + 1 < cols := by omega
    have hdiv : (p + 1) / cols = p / cols := by
      rw [hnext, Nat.add_mul_div_left _ _ hcols, Nat.div_eq_of_lt hlow, Nat.zero_add]
    have hmod : (p + 1) % cols = p % cols + 1 := by
      rw [hnext, Nat.add_mul_mod_self_left, Nat.mod_eq_of_lt hlow]
    rw [Nat.mod_eq_of_lt hlt]
    simp only [Lcd.at, hdiv, hmod]

/-- A character, and one cell on. -/
theorem lcdPutchar_at (cells : CArray (rows * cols)) (p : ℕ) (b : UInt8) (hp : p < rows * cols) :
    lcdPutchar (Lcd.at cells p) b = Lcd.at (cells.write p [b]) ((p + 1) % (rows * cols)) := by
  rw [lcdPutchar, sendData_at cells p b hp, advance_at _ p hp]

/-- The characters of a text. The induction is on the text, for every cell it
may begin at; the wrap behind the last cell of the display comes in with the
last character only. -/
theorem foldl_putchar_at (text : List UInt8) : ∀ (cells : CArray (rows * cols)) (p : ℕ),
    text ≠ [] → p + text.length ≤ rows * cols →
    text.foldl lcdPutchar (Lcd.at cells p)
      = Lcd.at (cells.write p text) ((p + text.length) % (rows * cols)) := by
  induction text with
  | nil =>
      intro _ _ h
      exact absurd rfl h
  | cons b text ih =>
      intro cells p _ hfit
      rw [List.length_cons] at hfit
      rw [List.foldl_cons, lcdPutchar_at cells p b (by omega)]
      -- the cursor wraps after the last character only
      rcases text.eq_nil_or_concat with rfl | ⟨_, _, rfl⟩
      · rfl
      · rw [Nat.mod_eq_of_lt (by simp at hfit ⊢; omega), ih _ _ (by simp)
          (by simp at hfit ⊢; omega), CArray.write_write _ _ _ _ (by simp at hfit ⊢; omega)]
        congr 2
        simp only [List.length_cons]
        omega

/-- **A text that fits from the cursor on replaces the cells it covers, and no
others.** What is longer wraps to the first cell and is not described by
this. -/
theorem lcdPuts_at (cells : CArray (rows * cols)) (p : ℕ) (text : List UInt8)
    (hne : text ≠ []) (hnul : ∀ b ∈ text, b ≠ 0) (hfit : p + text.length ≤ rows * cols) :
    lcdPuts (Lcd.at cells p) (text ++ [0])
      = Lcd.at (cells.write p text) ((p + text.length) % (rows * cols)) := by
  have htext : (text ++ [0]).takeWhile (· ≠ 0) = text := by
    rw [List.takeWhile_append_of_pos (by simpa using hnul)]
    simp
  rw [lcdPuts, htext, foldl_putchar_at text cells p hne hfit]

end AutoMag.DevLib
