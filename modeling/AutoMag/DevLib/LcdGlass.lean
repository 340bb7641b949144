/-
`DevLib/LcdGlass.lean` -- what the display shows of what the driver was told.

The grid of `DevLib/Lcd.lean` is what a program means; the memory of the controller is what is
seen. The driver never reads the display, so its cursor and the controller's address can drift
apart. They agree after `lcdClear`, `lcdHome` and every `lcdPosition` on the grid, and stay
together over what is written (`run_does`); so a program that positions before it writes shows
what the grid has (`lcd_shows`). They do not agree after `lcdInit`, whose last command moves
the address and not the cursor (`lcdInit_text_ahead`), nor after `lcdCharDef`, which leaves the
address in the other memory.
-/
import AutoMag.DevLib.LcdPins

set_option autoImplicit false

namespace AutoMag.DevLib.Pins

open AutoMag.CMemory AutoMag.Hd44780 AutoMag.Machine

/-! ## 1. The cells and the memory -/

variable {rows cols : ℕ}

/-- The driver's record of the display is the grid's. -/
structure Tracks (w : Wires) (d : Driver) (g : Lcd rows cols) : Prop where
  wired : Wired w d.lcd
  height : d.lcd.rows = rows
  breadth : d.lcd.cols = cols
  cx : d.lcd.cx = g.cx
  cy : d.lcd.cy = g.cy
  column : g.cx < cols
  row : g.cy < rows
  control : d.lcdControl ≤ 7

/-- The controller holds the grid; `known`: and is where the driver thinks it
is. -/
structure Shows (known : Bool) (d : Driver) (g : Lcd rows cols) (c : Chip) : Prop where
  bus : c.bus = width d.lcd.bits
  two : 1 < rows → c.two = true
  on : c.on = lit d.lcdControl
  increment : c.increment = true
  shifting : c.shifting = false
  shift : c.shift = 0
  cursor : known = true → c.memory = .ddram ∧ c.ac = rowOff g.cy + g.cx
  cells : ∀ y < rows, ∀ x < cols, g.cells.bytes[cols * y + x]? = some (c.ddram (rowOff y + x))

/-- A write of one byte, read back. -/
theorem write_one_getElem? {n : ℕ} (a : CArray n) {off : ℕ} (hoff : off < n) (b : UInt8) (i : ℕ) :
    (a.write off [b]).bytes[i]? = if i = off then some b else a.bytes[i]? := by
  have hsize := a.size
  rw [a.write_bytes off [b] hoff, List.length_singleton]
  by_cases hi : i = off
  · subst hi
    rw [if_pos rfl, List.append_assoc, List.getElem?_append_right (List.length_take_le ..),
      List.length_take, Nat.min_eq_left (by omega)]
    simp
  · rw [if_neg hi, List.append_assoc]
    by_cases hlt : i < off
    · rw [List.getElem?_append_left (by rw [List.length_take]; omega), List.getElem?_take_of_lt hlt]
    · rw [List.getElem?_append_right (by rw [List.length_take]; omega), List.length_take,
        Nat.min_eq_left (by omega), List.getElem?_append_right
          (by rw [List.length_singleton]; omega), List.getElem?_drop]
      congr 1
      rw [List.length_singleton]
      omega

/-- A cell of the grid is in one row and one column. -/
theorem cell_inj {x x' y y' : ℕ} (hx : x < cols) (hx' : x' < cols)
    (h : cols * y + x = cols * y' + x') :
    x = x' ∧ y = y' := by
  have hpos : 0 < cols := by omega
  have hy : y = y' := by
    have hdiv := congrArg (· / cols) h
    simpa [Nat.mul_add_div hpos, Nat.div_eq_of_lt hx, Nat.div_eq_of_lt hx'] using hdiv
  subst hy
  exact ⟨by omega, rfl⟩

section Refinement

variable {w : Wires} {noise : ℕ → UInt8} {d : Driver} {g : Lcd rows cols} {c : Chip} {known : Bool}
  (hrows : rows ≤ 4) (hcols : cols ≤ 20)

include hrows hcols in
/-- **A character lands in the cell the grid puts it in.** The other cells have
other addresses, and inside the row the counter is at the next one
afterwards. -/
theorem Shows.store (h : Shows true d g c) (hx : g.cx < cols) (hy : g.cy < rows) (data : UInt8) :
    Shows false d (sendData g data) (c.store data)
      ∧ (c.store data).memory = .ddram
      ∧ (g.cx + 1 < cols → (c.store data).ac = rowOff g.cy + (g.cx + 1)) := by
  obtain ⟨hmem, hac⟩ := h.cursor rfl
  have hstore : c.store data = { c with
      ddram := Function.update c.ddram (rowOff g.cy + g.cx) data
      ac := next c.two (rowOff g.cy + g.cx) } := by
    simp only [Chip.store, Chip.move, hmem, hac, h.shifting, h.increment, Bool.false_eq_true,
      if_true, if_false]
  rw [hstore]
  refine ⟨⟨h.bus, h.two, h.on, h.increment, h.shifting, h.shift,
    fun hk => absurd hk Bool.false_ne_true, ?_⟩, hmem, ?_⟩
  · intro y hy' x hx'
    have hin : cols * g.cy + g.cx < rows * cols := by
      have hle : cols * (g.cy + 1) ≤ cols * rows := Nat.mul_le_mul_left _ hy
      rw [Nat.mul_add, Nat.mul_one, Nat.mul_comm cols rows] at hle
      omega
    rw [sendData, if_pos ⟨hx, hy⟩, write_one_getElem? _ hin]
    by_cases hcell : cols * y + x = cols * g.cy + g.cx
    · obtain ⟨rfl, rfl⟩ := cell_inj hx' hx hcell
      simp
    · have haddr : rowOff y + x ≠ rowOff g.cy + g.cx := by
        intro haddr
        obtain ⟨rfl, rfl⟩ := rowOff_inj (by omega) (by omega) (by omega) (by omega) haddr
        exact hcell rfl
      rw [if_neg hcell, h.cells y hy' x hx']
      simp only [Function.update_of_ne haddr]
  · intro hnext
    apply next_rowOff (by omega) (by omega)
    by_cases hone : g.cy = 0
    · exact Or.inl hone
    · exact Or.inr (h.two (by omega))

/-- A command that sets the address, after which the controller is where the
cursor is, whatever it was doing before. -/
theorem Shows.address (h : Shows known d g c) {x y : ℕ} (hx : x < 20) (hy : y < 4) {d' : Driver}
    {g' : Lcd rows cols} (hbits : d'.lcd.bits = d.lcd.bits) (hctrl : d'.lcdControl = d.lcdControl)
    (hcells : g'.cells = g.cells) (hcx : g'.cx = x) (hcy : g'.cy = y) :
    Shows true d' g' (c.instruct (Pins.address x y)) := by
  rw [instruct_address c hx hy]
  refine ⟨by rw [hbits]; exact h.bus, h.two,
    by rw [hctrl]; exact h.on, h.increment, h.shifting, h.shift,
    fun _ => ⟨rfl, by rw [hcx, hcy]⟩, ?_⟩
  rw [hcells]
  exact h.cells

/-- A call of the driver does on the display what `g'` says it does on the
grid. -/
structure Does (w : Wires) (noise : ℕ → UInt8) (known : Bool) (d : Driver) (g : Lcd rows cols)
    (r : Driver × List Write) (known' : Bool) (g' : Lcd rows cols) : Prop where
  tracks : Tracks w r.1 g'
  writes : Triple w noise (fun _ c => Shows known d g c) r.2 (fun _ c => Shows known' r.1 g' c)

/-- Nothing is done. -/
theorem Does.nothing (ht : Tracks w d g) : Does w noise known d g (d, []) known g :=
  ⟨ht, Triple.nil⟩

/-- Both go back to the first cell. -/
theorem lcdHome_does (ht : Tracks w d g) :
    Does w noise known d g (lcdHome d) true { g with cx := 0, cy := 0 } := by
  refine ⟨⟨⟨ht.wired.1, ht.wired.2, ht.wired.3, ht.wired.4, ht.wired.5, ht.wired.6⟩, ht.height,
    ht.breadth, rfl, rfl, Nat.zero_lt_of_lt ht.column, Nat.zero_lt_of_lt ht.row, ht.control⟩, ?_⟩
  apply (triple_command ht.wired LCD_HOME).mono _ fun _ _ hQ => hQ
  intro _ c h
  rw [instruct_home]
  exact ⟨h.bus, h.bus, h.two, h.on, h.increment, h.shifting, rfl, fun _ => ⟨rfl, rfl⟩, h.cells⟩

/-- All cells are blanked. The source sends the clear and then the home command;
the first one alone would do. -/
theorem lcdClear_does (ht : Tracks w d g) :
    Does w noise known d g (lcdClear d) true (DevLib.lcdClear g) := by
  refine ⟨⟨⟨ht.wired.1, ht.wired.2, ht.wired.3, ht.wired.4, ht.wired.5, ht.wired.6⟩, ht.height,
    ht.breadth, rfl, rfl, Nat.zero_lt_of_lt ht.column, Nat.zero_lt_of_lt ht.row, ht.control⟩, ?_⟩
  apply Triple.mono ((triple_command ht.wired LCD_CLEAR).append (triple_command ht.wired LCD_HOME))
    _ fun _ _ hQ => hQ
  intro _ c h
  rw [instruct_clear, instruct_home]
  refine ⟨h.bus, h.bus, h.bus, h.two, h.on, rfl, h.shifting, rfl, fun _ => ⟨rfl, rfl⟩, ?_⟩
  intro y hy x hx
  have hin : cols * y + x < rows * cols := by
    have hle : cols * (y + 1) ≤ cols * rows := Nat.mul_le_mul_left _ hy
    rw [Nat.mul_add, Nat.mul_one, Nat.mul_comm cols rows] at hle
    omega
  exact List.getElem?_replicate_of_lt hin

/-- Switching a bit of the control register keeps the register in its three
bits. -/
theorem control_le {bit lcdControl : UInt8} (hbit : bit ≤ 7) (h : lcdControl ≤ 7) (state : Bool) :
    (if state then lcdControl ||| bit else lcdControl &&& ~~~bit) ≤ 7 := by
  have hall : ∀ a b : Fin 8, UInt8.ofNat a ||| UInt8.ofNat b ≤ 7
      ∧ UInt8.ofNat a &&& ~~~(UInt8.ofNat b) ≤ 7 := by
    decide +kernel
  have hlt : ∀ b : UInt8, b ≤ 7 → b.toNat < 8 :=
    fun b hb => Nat.lt_succ_of_le (UInt8.le_iff_toNat_le.mp hb)
  obtain ⟨hor, hand⟩ := hall ⟨_, hlt _ h⟩ ⟨_, hlt _ hbit⟩
  simp only [UInt8.ofNat_toNat] at hor hand
  cases state
  · exact hand
  · exact hor

/-- The three switches of the display change the register and nothing in the
cells. -/
theorem control_does (ht : Tracks w d g) {bit : UInt8} (hbit : bit ≤ 7) (state : Bool) :
    Does w noise known d g (control bit d state) known g := by
  have hle := control_le hbit ht.control state
  refine ⟨⟨ht.wired, ht.height, ht.breadth, ht.cx, ht.cy, ht.column, ht.row, hle⟩, ?_⟩
  apply (triple_command ht.wired _).mono _ fun _ _ hQ => hQ
  intro _ c h
  obtain ⟨cursor, blink, heq⟩ := instruct_ctrl c hle
  rw [heq]
  exact ⟨h.bus, h.bus, h.two, rfl, h.increment, h.shifting, h.shift, h.cursor, h.cells⟩

include hrows hcols in
/-- A position on the display. -/
theorem lcdPosition_does (ht : Tracks w d g) {x y : ℕ} (hx : x < cols) (hy : y < rows) :
    Does w noise known d g (lcdPosition d x y) true (DevLib.lcdPosition g x y) := by
  have hpos : lcdPosition d x y
      = ({ d with lcd := { d.lcd with cx := x, cy := y } }, putCommand d.lcd (address x y)) := by
    have hcol : ¬ ((d.lcd.cols : ℤ) < x ∨ (x : ℤ) < 0) := by rw [ht.breadth]; omega
    have hrow : ¬ ((d.lcd.rows : ℤ) < y ∨ (y : ℤ) < 0) := by rw [ht.height]; omega
    rw [lcdPosition, if_neg hcol, if_neg hrow]
    rfl
  have hgrid : DevLib.lcdPosition g x y = { g with cx := x, cy := y } := by
    rw [DevLib.lcdPosition, if_neg (by omega), if_neg (by omega)]
  rw [hpos, hgrid]
  refine ⟨⟨⟨ht.wired.1, ht.wired.2, ht.wired.3, ht.wired.4, ht.wired.5, ht.wired.6⟩, ht.height,
    ht.breadth, rfl, rfl, hx, hy, ht.control⟩, ?_⟩
  apply (triple_command ht.wired _).mono _ fun _ _ hQ => hQ
  intro _ c h
  exact ⟨h.bus, h.address (by omega) (by omega) rfl rfl rfl rfl rfl⟩

/-- The grid's cursor after a character that is not the last of its row. -/
theorem putchar_cursor (g : Lcd rows cols) (data : UInt8) (hend : g.cx + 1 ≠ cols) :
    (DevLib.lcdPutchar g data).cx = g.cx + 1 ∧ (DevLib.lcdPutchar g data).cy = g.cy := by
  have hsent : (sendData g data).cx = g.cx ∧ (sendData g data).cy = g.cy := by
    unfold sendData
    split <;> exact ⟨rfl, rfl⟩
  rw [DevLib.lcdPutchar, advance, hsent.1, if_neg hend]
  exact ⟨rfl, hsent.2⟩

include hrows hcols in
/-- A character the driver sees no end of a row at, written where the grid's
cursor is. It does not ask that the driver's column is the grid's, for right
after `lcdInit` it is not. -/
theorem triple_putchar (h : Wired w d.lcd) (hend : d.lcd.cx + 1 ≠ d.lcd.cols) (hx : g.cx < cols)
    (hy : g.cy < rows) (data : UInt8) :
    Triple w noise (fun _ c => Shows true d g c) (lcdPutchar d data).2
      (fun _ c => Shows (decide (g.cx + 1 < cols)) (lcdPutchar d data).1
        (DevLib.lcdPutchar g data) c) := by
  have hput : lcdPutchar d data
      = ({ d with lcd := { d.lcd with cx := d.lcd.cx + 1 } },
        [(d.lcd.rsPin, true)] ++ sendDataCmd d.lcd data) := by
    simp only [lcdPutchar, if_neg hend]
  have hcells : (DevLib.lcdPutchar g data).cells = (sendData g data).cells := by
    rw [DevLib.lcdPutchar, advance]
    split <;> rfl
  rw [hput]
  apply Triple.mono (triple_data h data) _ fun _ _ hQ => hQ
  intro _ c hs
  obtain ⟨hstore, hmem, hac⟩ := hs.store hrows hcols hx hy data
  refine ⟨hs.bus, hstore.bus, hstore.two, hstore.on, hstore.increment, hstore.shifting,
    hstore.shift, ?_, ?_⟩
  · intro hk
    have hlt : g.cx + 1 < cols := of_decide_eq_true hk
    obtain ⟨hcx, hcy⟩ := putchar_cursor g data (by omega)
    rw [hcx, hcy]
    exact ⟨hmem, hac hlt⟩
  · rw [hcells]
    exact hstore.cells

include hrows hcols in
/-- **One character**, and at the end of a row the address of the next. The
controller's counter would go on in another row there, which is why the driver
sets it. -/
theorem lcdPutchar_does (ht : Tracks w d g) (data : UInt8) :
    Does w noise true d g (lcdPutchar d data) true (DevLib.lcdPutchar g data) := by
  have hwired : ∀ cx cy, Wired w { d.lcd with cx := cx, cy := cy } := fun _ _ =>
    ⟨ht.wired.1, ht.wired.2, ht.wired.3, ht.wired.4, ht.wired.5, ht.wired.6⟩
  have hsent : (sendData g data).cx = g.cx ∧ (sendData g data).cy = g.cy := by
    unfold sendData
    split <;> exact ⟨rfl, rfl⟩
  by_cases hend : g.cx + 1 = cols
  · let cy := if g.cy + 1 = rows then 0 else g.cy + 1
    have hput : lcdPutchar d data = ({ d with lcd := { d.lcd with cx := 0, cy := cy } },
        [(d.lcd.rsPin, true)] ++ sendDataCmd d.lcd data
          ++ putCommand { d.lcd with cx := 0, cy := cy } (address 0 cy)) := by
      have hcx : d.lcd.cx + 1 = d.lcd.cols := by rw [ht.cx, ht.breadth]; exact hend
      have hcy : (if d.lcd.cy + 1 = d.lcd.rows then 0 else d.lcd.cy + 1) = cy := by
        rw [ht.cy, ht.height]
      simp only [lcdPutchar, if_pos hcx, hcy]
    have hgrid : DevLib.lcdPutchar g data
        = { sendData g data with cx := 0, cy := cy } := by
      rw [DevLib.lcdPutchar, advance, hsent.1, hsent.2, if_pos hend]
    have hrow : cy < rows := by
      have hlt := ht.row
      simp only [cy]
      split <;> omega
    rw [hgrid, hput]
    refine ⟨⟨hwired _ _, ht.height, ht.breadth, rfl, rfl, Nat.zero_lt_of_lt ht.column, hrow,
      ht.control⟩, ?_⟩
    apply Triple.mono ((triple_data ht.wired data).append (triple_command (hwired _ _) _)) _
      fun _ _ hQ => hQ
    intro _ c h
    obtain ⟨hstore, -, -⟩ := h.store hrows hcols ht.column ht.row data
    exact ⟨h.bus, hstore.bus, hstore.address (by omega) (by omega) rfl rfl rfl rfl rfl⟩
  · have hlt : g.cx + 1 < cols := Nat.lt_of_le_of_ne ht.column hend
    have hcx : d.lcd.cx + 1 ≠ d.lcd.cols := by rw [ht.cx, ht.breadth]; exact hend
    have hput : (lcdPutchar d data).1
        = { d with lcd := { d.lcd with cx := d.lcd.cx + 1, cy := d.lcd.cy } } := by
      simp only [lcdPutchar, if_neg hcx]
    have hgrid := putchar_cursor g data hend
    refine ⟨?_, ?_⟩
    · rw [hput]
      exact ⟨hwired _ _, ht.height, ht.breadth, by rw [hgrid.1, ← ht.cx], by rw [hgrid.2, ← ht.cy],
        by rw [hgrid.1]; exact hlt, by rw [hgrid.2]; exact ht.row, ht.control⟩
    · apply (triple_putchar hrows hcols ht.wired hcx ht.column ht.row data).mono fun _ _ hP => hP
      intro _ c hs
      rw [decide_eq_true hlt] at hs
      exact hs

/-- One call after the other. -/
theorem Does.trans {r r' : Driver × List Write} {known' known'' : Bool} {g' g'' : Lcd rows cols}
    (h : Does w noise known d g r known' g') (h' : Does w noise known' r.1 g' r' known'' g'') :
    Does w noise known d g (r'.1, r.2 ++ r'.2) known'' g'' :=
  ⟨h'.tracks, h.writes.append h'.writes⟩

include hrows hcols in
/-- A text is its characters, up to the NUL. -/
theorem lcdPuts_does (ht : Tracks w d g) (string : List UInt8) :
    Does w noise true d g (lcdPuts d string) true (DevLib.lcdPuts g string) := by
  rw [lcdPuts, DevLib.lcdPuts]
  generalize string.takeWhile (· ≠ 0) = text
  induction text generalizing d g with
  | nil => exact Does.nothing ht
  | cons data text ih =>
      have hfirst : Does w noise true d g (lcdPutchar d data) true (DevLib.lcdPutchar g data) :=
        lcdPutchar_does hrows hcols ht data
      exact hfirst.trans (ih hfirst.tracks)

/-- A new character changes nothing on the display, but where the next one goes:
the controller is left in the memory of the character patterns. -/
theorem lcdCharDef_does (ht : Tracks w d g) (index : UInt8) (data : List UInt8) :
    Does w noise known d g (lcdCharDef d index data) false g := by
  let Inside : Bool → Chip → Prop := fun rs c => rs = true ∧ c.memory = .cgram ∧ Shows false d g c
  have hrow : ∀ b ∈ data.take 8, Triple w noise Inside (sendDataCmd d.lcd b) Inside := by
    intro b _
    apply (triple_send ht.wired b).mono _ fun _ _ hQ => hQ
    rintro rs c ⟨rfl, hmem, h⟩
    have hstore : c.execute true b
        = { c with cgram := Function.update c.cgram c.ac b, ac := c.move c.increment } := by
      simp only [Chip.execute, Chip.store, hmem, if_true]
    rw [hstore]
    exact ⟨h.bus, rfl, hmem, h.bus, h.two, h.on, h.increment, h.shifting, h.shift,
      fun hk => absurd hk Bool.false_ne_true, h.cells⟩
  have hselect : Triple w noise (fun _ c => Inside true c) [(d.lcd.rsPin, true)] Inside := by
    rw [ht.wired.rs]
    exact Triple.select ht.wired.select_ne true
  refine ⟨ht, ?_⟩
  apply Triple.mono ((triple_command ht.wired _).append (hselect.append (Triple.flatMap _ hrow)))
    _ fun _ _ hQ => hQ.2.2
  intro _ c h
  obtain ⟨ac, heq⟩ := instruct_cgram c index
  rw [heq]
  exact ⟨h.bus, rfl, rfl, h.bus, h.two, h.on, h.increment, h.shifting, h.shift,
    fun hk => absurd hk Bool.false_ne_true, h.cells⟩

end Refinement

/-! ## 2. Every program of calls -/

end AutoMag.DevLib.Pins

namespace AutoMag.DevLib

/-- The call as the driver makes it: what it keeps in mind, and what it writes
to the pins. -/
def Call.act (d : Pins.Driver) : Call → Pins.Driver × List Hd44780.Write
  | .home => Pins.lcdHome d
  | .clear => Pins.lcdClear d
  | .display state => Pins.lcdDisplay d state
  | .cursor state => Pins.lcdCursor d state
  | .blink state => Pins.lcdCursorBlink d state
  | .position x y => Pins.lcdPosition d x y
  | .charDef index data => Pins.lcdCharDef d index data
  | .putchar data => Pins.lcdPutchar d data
  | .puts string => Pins.lcdPuts d string
  | .printf message => Pins.lcdPrintf d message

/-- A location `lcdPosition` does not ignore. -/
def Taken (rows cols : ℕ) (x y : ℤ) : Prop := (0 ≤ x ∧ x ≤ cols) ∧ 0 ≤ y ∧ y ≤ rows

instance (rows cols : ℕ) (x y : ℤ) : Decidable (Taken rows cols x y) :=
  inferInstanceAs (Decidable (_ ∧ _))

/-- Whether the controller is where the driver thinks it is, after the call. -/
def Call.known (rows cols : ℕ) (known : Bool) : Call → Bool
  | .home | .clear => true
  | .position x y => if Taken rows cols x y then true else known
  | .charDef _ _ => false
  | _ => known

/-- What the call has to keep to: a text is written where the position is known,
and the first location past the end of a row or column, which the driver takes,
is not used. -/
def Call.Ok (rows cols : ℕ) (known : Bool) : Call → Prop
  | .putchar _ | .puts _ | .printf _ => known = true
  | .position x y => Taken rows cols x y → x < cols ∧ y < rows
  | _ => True

/-- A call that does not switch the display, its cursor or the blinking. -/
def Call.IsText : Call → Prop
  | .display _ | .cursor _ | .blink _ => False
  | _ => True

end AutoMag.DevLib

namespace AutoMag.DevLib.Pins

open AutoMag.CMemory AutoMag.Hd44780 AutoMag.Machine

variable {rows cols : ℕ}

/-- All the calls of a program keep to it. -/
def Careful (rows cols : ℕ) : Bool → List Call → Prop
  | _, [] => True
  | known, call :: calls => call.Ok rows cols known
    ∧ Careful rows cols (call.known rows cols known) calls

/-- A careful program may be followed by one that is careful from there on. -/
theorem careful_append (rows cols : ℕ) (as bs : List Call) : ∀ known : Bool,
    Careful rows cols known (as ++ bs)
      ↔ Careful rows cols known as
        ∧ Careful rows cols (as.foldl (Call.known rows cols) known) bs := by
  induction as with
  | nil => simp [Careful]
  | cons a as ih =>
      intro known
      rw [List.cons_append, Careful, Careful, ih, List.foldl_cons, and_assoc]

theorem lcdControl_puts (d : Driver) (string : List UInt8) :
    (lcdPuts d string).1.lcdControl = d.lcdControl := by
  rw [lcdPuts]
  generalize string.takeWhile (· ≠ 0) = text
  have hone : ∀ (d : Driver) (data : UInt8), (lcdPutchar d data).1.lcdControl = d.lcdControl := by
    intro d data
    simp only [lcdPutchar]
    split <;> rfl
  induction text generalizing d with
  | nil => rfl
  | cons data text ih => exact (ih (lcdPutchar d data).1).trans (hone d data)

/-- Without such calls the control register stays as it is, so the display is
still on. -/
theorem lcdControl_run (calls : List Call) : ∀ d : Driver, (∀ call ∈ calls, call.IsText) →
    (feed Call.act d calls).1.lcdControl = d.lcdControl := by
  have hone : ∀ (d : Driver) (call : Call), call.IsText →
      (call.act d).1.lcdControl = d.lcdControl := by
    intro d call h
    cases call with
    | display _ | cursor _ | blink _ => cases h
    | home | clear | charDef _ _ => rfl
    | position x y =>
        simp only [Call.act, lcdPosition]
        split_ifs <;> rfl
    | putchar data =>
        simp only [Call.act, lcdPutchar]
        split <;> rfl
    | puts string => exact lcdControl_puts d string
    | printf message => exact lcdControl_puts d _
  induction calls with
  | nil => exact fun _ _ => rfl
  | cons call calls ih =>
      intro d h
      exact (ih (call.act d).1 fun c hc => h c (List.mem_cons_of_mem _ hc)).trans
        (hone d call (h call (List.mem_cons_self ..)))

variable {w : Wires} {noise : ℕ → UInt8} {d : Driver} {g : Lcd rows cols} {known : Bool}

/-- **One call**, by the call it is. `Ok` asks for a position where it is not
known that the controller is where the cursor is. -/
theorem Call.does (hrows : rows ≤ 4) (hcols : cols ≤ 20) (ht : Tracks w d g) {call : Call}
    (hok : call.Ok rows cols known) :
    Does w noise known d g (call.act d) (call.known rows cols known) (call.draw g) := by
  cases call with
  | home => exact lcdHome_does ht
  | clear => exact lcdClear_does ht
  | display state | cursor state | blink state => exact control_does ht (by decide) state
  | charDef index data => exact lcdCharDef_does ht index data
  | putchar data =>
      obtain rfl : known = true := hok
      exact lcdPutchar_does hrows hcols ht data
  | puts string =>
      obtain rfl : known = true := hok
      exact lcdPuts_does hrows hcols ht string
  | printf message =>
      obtain rfl : known = true := hok
      exact lcdPuts_does hrows hcols ht _
  | position x y =>
      by_cases htaken : Taken rows cols x y
      · obtain ⟨hx, hy⟩ := hok htaken
        obtain ⟨x, rfl⟩ := Int.eq_ofNat_of_zero_le htaken.1.1
        obtain ⟨y, rfl⟩ := Int.eq_ofNat_of_zero_le htaken.2.1
        have hdo : Does w noise known d g (lcdPosition d x y) true (DevLib.lcdPosition g x y) :=
          lcdPosition_does hrows hcols ht (by omega) (by omega)
        rw [Call.known, if_pos htaken, Call.draw, if_neg (by omega)]
        exact hdo
      · -- ignored on both sides
        have hact : lcdPosition d x y = (d, []) := by
          rw [lcdPosition, ht.breadth, ht.height]
          simp only [Taken] at htaken
          split_ifs <;> first | rfl | omega
        have hdraw : (Call.position x y).draw g = g := by
          simp only [Call.draw, DevLib.lcdPosition]
          simp only [Taken] at htaken
          split_ifs <;> first | rfl | omega
        rw [Call.act, hact, Call.known, if_neg htaken, hdraw]
        exact Does.nothing ht

/-- Where the controller is after a program. -/
def known_after (rows cols : ℕ) (known : Bool) (calls : List Call) : Bool :=
  calls.foldl (Call.known rows cols) known

/-- **Every call of a program.** By induction on the calls, each leaving the
driver, the grid and the controller together for the next. -/
theorem run_does (hrows : rows ≤ 4) (hcols : cols ≤ 20) (calls : List Call) :
    ∀ {d : Driver} {g : Lcd rows cols} {known : Bool}, Tracks w d g →
    Careful rows cols known calls →
    Does w noise known d g (feed Call.act d calls) (known_after rows cols known calls)
      (calls.foldl Call.draw g) := by
  induction calls with
  | nil => exact fun ht _ => Does.nothing ht
  | cons call calls ih =>
      intro d g known ht hcareful
      have hfirst :
          Does w noise known d g (call.act d) (call.known rows cols known) (call.draw g) :=
        Call.does hrows hcols ht hcareful.1
      exact hfirst.trans (ih hfirst.tracks hcareful.2)

/-- What the glass shows of a controller that holds the grid: the cells, at the
addresses where the lines of the display begin. -/
theorem Shows.glass {c : Chip} (hrows : rows ≤ 4) (hcols : cols ≤ 20)
    (h : Shows known d g c) {x y : ℕ} (hx : x < cols) (hy : y < rows) :
    c.glass (rowOff y) x = if lit d.lcdControl then g.cells.bytes.getD (cols * y + x) blank
      else blank := by
  have hcell : g.cells.bytes.getD (cols * y + x) blank = c.ddram (rowOff y + x) := by
    rw [List.getD_eq_getElem?_getD, h.cells y hy x hx]
    rfl
  rw [hcell, Chip.glass, h.on, h.shift]
  by_cases hlit : lit d.lcdControl
  · rw [if_pos hlit, if_pos hlit]
    have hrow : y = 0 ∨ y = 1 ∨ y = 2 ∨ y = 3 := by omega
    by_cases htwo : c.two
    · rw [if_pos htwo]
      rcases hrow with rfl | rfl | rfl | rfl <;> simp only [rowOff] <;> apply congrArg <;>
        simp <;> omega
    · rw [if_neg htwo]
      -- one line, so there is one row
      have hy0 : y = 0 := by
        by_contra hne
        exact htwo (h.two (by omega))
      subst hy0
      apply congrArg
      simp [rowOff]
      omega
  · rw [if_neg hlit, if_neg hlit]
    rfl

/-! ## 3. `lcdInit` -/

section Init

variable {bits rs strb : ℕ} {pins : List ℕ} {noise : ℕ → UInt8} {Q : Bool → Chip → Prop}

/-- The display on the pins `lcdInit` is told. -/
def wires (bits rs strb : ℕ) (pins : List ℕ) : Wires := ⟨rs, strb, pins.take bits⟩

/-- The bits of the enable line come down first, whatever the pins were. Until
then the controller may latch anything, which is harmless as its state is
arbitrary yet. -/
theorem run_low (hnd : (rs :: strb :: pins.take bits).Nodup) (b : Bench) :
    (b.run (wires bits rs strb pins) noise
      ([(rs, false), (strb, false)] ++ (pins.take bits).map fun pin => (pin, false))).level strb
        = false := by
  have hzip : ∀ ps : List ℕ, (ps.map fun pin => (pin, false))
      = ps.zip (List.replicate ps.length false) := by
    intro ps
    induction ps with
    | nil => rfl
    | cons p ps ih =>
        rw [List.map_cons, ih]
        rfl
  simp only [List.nodup_cons, List.mem_cons, not_or] at hnd
  rw [run_append, hzip]
  obtain ⟨-, -, hrest, -⟩ := run_levels (wires bits rs strb pins) noise (pins.take bits)
    (b := b.run (wires bits rs strb pins) noise [(rs, false), (strb, false)])
    (List.replicate (pins.take bits).length false) hnd.2.1 hnd.2.2 List.length_replicate
  rw [hrest strb hnd.2.1]
  have hdown : ∀ b : Bench,
      (b.write (wires bits rs strb pins) noise (strb, false)).level strb = false := by
    intro b
    unfold Bench.write
    simp only
    split <;> exact Function.update_self ..
  exact hdown _

/-- Half a command, with whatever stands on the lower lines. Only the upper half
of the byte is known, and the function set is decided by it. -/
theorem triple_put4 {w : Wires} {lcd : LcdData} (hrs : lcd.rsPin = w.rs) (he : lcd.strbPin = w.e)
    (hdb : lcd.dataPins.take 4 = w.db) (hlen : w.db.length = 4) (hnd : (w.rs :: w.e :: w.db).Nodup)
    (command : UInt8) :
    Triple w noise (fun _ c => ∀ db : UInt8, db >>> 4 = command &&& 0x0F →
      Q false (c.latch false db))
      (put4Command lcd command) Q := by
  have hne : w.rs ≠ w.e := by
    simp only [List.nodup_cons, List.mem_cons, not_or] at hnd
    exact hnd.1.1
  rw [put4Command, hrs, hdb]
  apply Triple.mono ((Triple.select hne false).append (triple_bits he hnd command)) _
    fun _ _ hQ => hQ
  intro _ c h noise
  rw [hlen]
  exact h _ (ofBits_upper _ _)

/-- A whole command to a controller that may take it for half of one. -/
theorem triple_put8 {w : Wires} {lcd : LcdData} (h : Wired w lcd) (hbits : lcd.bits = 8)
    (command : UInt8) :
    Triple w noise (fun _ c => Q false (c.latch false command)) (putCommand lcd command) Q := by
  have hdb := h.db
  have hlen := h.length
  rw [hbits] at hdb hlen
  have hne : lcd.bits ≠ 4 := by omega
  rw [putCommand, h.rs, sendDataCmd, if_neg hne, hdb]
  apply Triple.mono ((Triple.select h.select_ne false).append (triple_bits h.e h.nodup command)) _
    fun _ _ hQ => hQ
  intro _ c hQ noise
  rw [hlen]
  change Q false (c.latch false (ofBits (lowest 8 command)))
  rw [ofBits_lowest]
  exact hQ

/-- **The function sets bring the bus to the width the driver counts on**, from
any state. It takes three of them, as a controller in the middle of a byte uses
one up. -/
theorem triple_functions (hbits : bits = 4 ∨ bits = 8) (hlen : bits ≤ pins.length)
    (hnd : (rs :: strb :: pins.take bits).Nodup) {lcd : LcdData} (hlcd : lcd.bits = 8)
    (hrs : lcd.rsPin = rs) (he : lcd.strbPin = strb) (hpins : lcd.dataPins = pins) :
    Triple (wires bits rs strb pins) noise (fun _ _ => True) (functions lcd bits)
      (fun _ c => c.bus = width bits) := by
  have hdb : (wires bits rs strb pins).db.length = bits := by
    rw [wires, List.length_take]
    omega
  rcases hbits with rfl | rfl
  · have hput : ∀ (Q : Bool → Chip → Prop) (command : UInt8), Triple (wires 4 rs strb pins) noise
        (fun _ c => ∀ db : UInt8, db >>> 4 = command &&& 0x0F → Q false (c.latch false db))
          (put4Command lcd command) Q :=
      fun Q command => triple_put4 hrs he (by rw [hpins]; rfl) hdb hnd command
    rw [functions, if_pos rfl]
    apply Triple.mono ((hput _ _).append ((hput _ _).append ((hput _ _).append (hput _ _)))) _
      fun _ _ hQ => hQ
    intro _ c _ db₁ h₁ db₂ h₂ db₃ h₃ db₄ h₄
    have hwide := resync c h₁ h₂ h₃
    rw [latch_byte hwide]
    exact instruct_narrow h₄ _
  · have hwired : Wired (wires 8 rs strb pins) lcd :=
      ⟨hrs, he, by rw [hpins, hlcd]; rfl, by rw [hdb, hlcd], Or.inr hlcd, hnd⟩
    rw [functions, if_neg (by decide)]
    apply Triple.mono ((triple_put8 hwired hlcd _).append ((triple_put8 hwired hlcd _).append
      (triple_put8 hwired hlcd _))) _ fun _ _ hQ => hQ
    intro _ c _
    have hwide : IsWide (LCD_FUNC ||| LCD_FUNC_DL) := by rfl
    exact resync c hwide hwide hwide

/-- What the sequence needs of the controller: whole bytes get through, and two
lines are two. -/
def Base (bits rows : ℕ) (c : Chip) : Prop := c.bus = width bits ∧ (1 < rows → c.two = true)

/-- One of the switches at the end of `lcdInit`. -/
theorem triple_control {w : Wires} {rows : ℕ} (d : Driver) (h : Wired w d.lcd)
    (hctrl : d.lcdControl ≤ 7) (bit : UInt8) (hbit : bit ≤ 7) (state : Bool) :
    Triple w noise (fun _ c => Base d.lcd.bits rows c) (control bit d state).2
      (fun _ c => Base d.lcd.bits rows c ∧ c.on = lit (control bit d state).1.lcdControl) := by
  have hle := control_le hbit hctrl state
  apply (triple_command h _).mono _ fun _ _ hQ => hQ
  intro _ c hbase
  obtain ⟨cursor, blink, heq⟩ := instruct_ctrl c hle
  rw [heq]
  exact ⟨hbase.1, hbase, rfl⟩

/-- The cells are blank, the registers as the driver relies on, and the address
one further than the cursor. -/
structure Fresh (rows cols : ℕ) (d : Driver) (c : Chip) : Prop where
  shows_blank : ∀ cells, Shows false d (DevLib.lcdInit cells : Lcd rows cols) c
  memory : c.memory = .ddram
  ac : c.ac = 1
  lit : lit d.lcdControl = true

theorem finish_control {d : Driver} (hctrl : d.lcdControl ≤ 7) :
    (lcdDisplay d true).1.lcdControl ≤ 7 ∧ (lcdCursor (lcdDisplay d true).1 false).1.lcdControl ≤ 7
      ∧ (finish d).1.lcdControl ≤ 7 := by
  have h₁ : (lcdDisplay d true).1.lcdControl ≤ 7 := control_le (by decide) hctrl true
  have h₂ : (lcdCursor (lcdDisplay d true).1 false).1.lcdControl ≤ 7 :=
    control_le (by decide) h₁ false
  exact ⟨h₁, h₂, control_le (by decide) h₂ false⟩

/-- The display is switched on before the cursor and the blinking are switched
off. -/
theorem finish_lit (d : Driver) : lit (finish d).1.lcdControl = true := by
  have hall : ∀ b : UInt8,
      lit (((b ||| LCD_DISPLAY_CTRL) &&& ~~~LCD_CURSOR_CTRL) &&& ~~~LCD_BLINK_CTRL) = true :=
    forall_byte (by decide +kernel)
  exact hall d.lcdControl

/-- The tail of `lcdInit`: the three switches, the clear, the entry mode, and a
shift of the cursor. -/
theorem triple_finish {w : Wires} (d : Driver) (rows cols : ℕ) (h : Wired w d.lcd)
    (hctrl : d.lcdControl ≤ 7) :
    Triple w noise (fun _ c => Base d.lcd.bits rows c) (finish d).2
      (fun _ c => Fresh rows cols (finish d).1 c) := by
  obtain ⟨h₁, h₂, -⟩ := finish_control hctrl
  have hlast : Triple w noise
      (fun _ c => Base d.lcd.bits rows c ∧ c.on = lit (finish d).1.lcdControl)
      (putCommand d.lcd LCD_CLEAR ++ putCommand d.lcd LCD_HOME
        ++ (putCommand { d.lcd with cx := 0, cy := 0 } (LCD_ENTRY ||| LCD_ENTRY_ID)
          ++ putCommand { d.lcd with cx := 0, cy := 0 } (LCD_CDSHIFT ||| LCD_CDSHIFT_RL)))
      (fun _ c => Fresh rows cols (finish d).1 c) := by
    have hw : Wired w { d.lcd with cx := 0, cy := 0 } := ⟨h.1, h.2, h.3, h.4, h.5, h.6⟩
    apply Triple.mono (((triple_command h _).append (triple_command h _)).append
      ((triple_command hw _).append (triple_command hw _))) _ fun _ _ hQ => hQ
    rintro _ c ⟨⟨hbus, htwo⟩, hon⟩
    rw [instruct_clear, instruct_home, instruct_entry, instruct_cdshift]
    have hac : ∀ two, next two 0 = 1 := by decide
    refine ⟨hbus, hbus, hbus, hbus, fun cells => ?_, rfl, hac _, finish_lit d⟩
    refine ⟨hbus, htwo, hon, rfl, rfl, rfl, fun hk => absurd hk Bool.false_ne_true, ?_⟩
    intro y hy x hx
    have hin : cols * y + x < rows * cols := by
      have hle : cols * (y + 1) ≤ cols * rows := Nat.mul_le_mul_left _ hy
      rw [Nat.mul_add, Nat.mul_one, Nat.mul_comm cols rows] at hle
      omega
    exact List.getElem?_replicate_of_lt hin
  let Known : Bool → Chip → Prop := fun _ c => Base d.lcd.bits rows c
  have hdisplay : Triple w noise Known (lcdDisplay d true).2 Known :=
    (triple_control d h hctrl LCD_DISPLAY_CTRL (by decide) true).mono (fun _ _ hP => hP)
      fun _ _ hQ => hQ.1
  have hcursor : Triple w noise Known (lcdCursor (lcdDisplay d true).1 false).2 Known :=
    (triple_control (lcdDisplay d true).1 h h₁ LCD_CURSOR_CTRL (by decide) false).mono
      (fun _ _ hP => hP) fun _ _ hQ => hQ.1
  have hblink :
      Triple w noise Known (lcdCursorBlink (lcdCursor (lcdDisplay d true).1 false).1 false).2
      (fun _ c => Base d.lcd.bits rows c ∧ c.on = lit (finish d).1.lcdControl) :=
    triple_control (lcdCursor (lcdDisplay d true).1 false).1 h h₂ LCD_BLINK_CTRL (by decide) false
  exact hdisplay.append (hcursor.append (hblink.append hlast))

/-- **`lcdInit` leaves a blank display**, from whatever state the controller and
the pins were in, with the address already at the second cell while the cursor
is at the first. -/
theorem lcdInit_ahead {rows cols : ℕ} (hrows : 0 < rows ∧ rows ≤ 20) (hcols : 0 < cols ∧ cols ≤ 20)
    (hbits : bits = 4 ∨ bits = 8) (hlen : bits ≤ pins.length)
    (hnd : (rs :: strb :: pins.take bits).Nodup)
    {lcdControl : UInt8} (hctrl : lcdControl ≤ 7) (cells : CArray (rows * cols))
    (noise : ℕ → UInt8) (b : Bench) :
    ∃ r, lcdInit lcdControl rows cols bits rs strb pins = some r
      ∧ Tracks (wires bits rs strb pins) r.1 (DevLib.lcdInit cells)
      ∧ (b.run (wires bits rs strb pins) noise r.2).level strb = false
      ∧ Fresh rows cols r.1 (b.run (wires bits rs strb pins) noise r.2).chip := by
  let lcd : LcdData := ⟨8, rows, cols, rs, strb, pins, 0, 0⟩
  let lcd' : LcdData := { lcd with bits := bits }
  let func := if bits = 4 then LCD_FUNC else LCD_FUNC ||| LCD_FUNC_DL
  let lines := if 1 < rows then putCommand lcd' (func ||| LCD_FUNC_N) else []
  let low := [(rs, false), (strb, false)] ++ (pins.take bits).map fun pin => (pin, false)
  have hinit : lcdInit lcdControl rows cols bits rs strb pins
      = some ((finish ⟨lcd', lcdControl⟩).1,
        low ++ (functions lcd bits ++ (lines ++ (finish ⟨lcd', lcdControl⟩).2))) := by
    have hr : ¬ ((rows : ℤ) < 0 ∨ (20 : ℤ) < rows) := by omega
    have hc : ¬ ((cols : ℤ) < 0 ∨ (20 : ℤ) < cols) := by omega
    have hone : ((1 : ℤ) < rows) = (1 < rows) := by
      apply propext
      omega
    rw [lcdInit, if_neg (not_not.mpr hbits), if_neg hr, if_neg hc]
    simp only [hone, Int.toNat_natCast]
    rfl
  have hwired : Wired (wires bits rs strb pins) lcd' := by
    refine ⟨rfl, rfl, rfl, ?_, hbits, hnd⟩
    rw [wires, List.length_take]
    exact Nat.min_eq_left hlen
  have hlines : Triple (wires bits rs strb pins) noise (fun _ c => c.bus = width bits) lines
      (fun _ c => Base bits rows c) := by
    by_cases hr : 1 < rows
    · simp only [lines, if_pos hr]
      apply (triple_command hwired _).mono _ fun _ _ hQ => hQ
      intro _ c hbus
      rw [instruct_lines hbits]
      exact ⟨hbus, rfl, fun _ => rfl⟩
    · simp only [lines, if_neg hr]
      exact Triple.nil.mono (fun _ c hbus => ⟨hbus, fun h => absurd h hr⟩) fun _ _ hQ => hQ
  have hfunctions : Triple (wires bits rs strb pins) noise (fun _ _ => True) (functions lcd bits)
      (fun _ c => c.bus = width bits) := triple_functions hbits hlen hnd rfl rfl rfl rfl
  have hfinish : Triple (wires bits rs strb pins) noise (fun _ c => Base bits rows c)
      (finish ⟨lcd', lcdControl⟩).2
      (fun _ c => Fresh rows cols (finish ⟨lcd', lcdControl⟩).1 c) :=
    triple_finish ⟨lcd', lcdControl⟩ rows cols hwired hctrl
  have hall := hfunctions.append (hlines.append hfinish)
  obtain ⟨hidle, hfresh⟩ := hall (b.run (wires bits rs strb pins) noise low) (run_low hnd b) trivial
  refine ⟨_, hinit, ?_, ?_, ?_⟩
  · exact ⟨⟨rfl, rfl, rfl, hwired.length, hbits, hnd⟩, rfl, rfl, rfl, rfl, hcols.1, hrows.1,
      (finish_control hctrl).2.2⟩
  · rw [run_append]
    exact hidle
  · rw [run_append]
    exact hfresh

/-- **The display shows the grid**: whatever state the controller and the pins
were in before `lcdInit`, and whatever stands on lines that are not connected,
after any careful program of calls every cell shows what the grid has there, if
the display is still on, and the driver's cursor is the grid's. -/
theorem lcd_shows {rows cols : ℕ} (hrows : 0 < rows ∧ rows ≤ 4) (hcols : 0 < cols ∧ cols ≤ 20)
    (hbits : bits = 4 ∨ bits = 8) (hlen : bits ≤ pins.length)
    (hnd : (rs :: strb :: pins.take bits).Nodup)
    {lcdControl : UInt8} (hctrl : lcdControl ≤ 7) (cells : CArray (rows * cols))
    (noise : ℕ → UInt8) (b : Bench) (calls : List Call) (hcalls : Careful rows cols false calls) :
    ∃ r, lcdInit lcdControl rows cols bits rs strb pins = some r ∧ lit r.1.lcdControl = true
      ∧ let s := feed Call.act r.1 calls
        let c := (b.run (wires bits rs strb pins) noise (r.2 ++ s.2)).chip
        let g := calls.foldl Call.draw (DevLib.lcdInit cells : Lcd rows cols)
        (∀ y < rows, ∀ x < cols, c.glass (rowOff y) x
            = if lit s.1.lcdControl then g.cells.bytes.getD (cols * y + x) blank else blank)
          ∧ s.1.lcd.cx = g.cx ∧ s.1.lcd.cy = g.cy := by
  obtain ⟨r, hinit, htracks, hidle, hfresh⟩ :=
    lcdInit_ahead ⟨hrows.1, by omega⟩ hcols hbits hlen hnd hctrl cells
    noise b
  have hdoes : Does (wires bits rs strb pins) noise false r.1 (DevLib.lcdInit cells)
      (feed Call.act r.1 calls)
      (known_after rows cols false calls) (calls.foldl Call.draw (DevLib.lcdInit cells)) :=
    run_does hrows.2 hcols.2 calls htracks hcalls
  refine ⟨r, hinit, hfresh.lit, ?_, hdoes.tracks.cx, hdoes.tracks.cy⟩
  intro y hy x hx
  rw [run_append]
  obtain ⟨-, hshows⟩ := hdoes.writes _ hidle (hfresh.shows_blank cells)
  exact hshows.glass hrows.2 hcols.2 hx hy

/-- A controller woken up between the halves of a byte, shifted and off, with
all pins up. -/
def woken : Bench where
  level := fun _ => true
  chip := ⟨fun _ => 65, fun _ => 0, .lower 2, .cgram, 5, false, false, true, false, true, true, 3⟩
  edges := 0

/-- A display that woke up in the middle of a byte, and a text on its second
line. -/
theorem lcd_shows_woken :
    ∃ r, lcdInit 0 2 16 4 29 25 [24, 23, 22, 21, 0, 0, 0, 0] = some r
      ∧ let s := feed Call.act r.1 [.position 0 1, .puts [72, 105, 0]]
        let c := (woken.run (wires 4 29 25 [24, 23, 22, 21, 0, 0, 0, 0])
            (fun _ => 0xA5) (r.2 ++ s.2)).chip
        c.glass (rowOff 0) 0 = blank ∧ c.glass (rowOff 1) 0 = 72 ∧ c.glass (rowOff 1) 1 = 105
          ∧ s.1.lcd.cx = 2 := by
  have hrows : 0 < 2 ∧ 2 ≤ 4 := by decide
  have hcols : 0 < 16 ∧ 16 ≤ 20 := by decide
  have hbits : 4 = 4 ∨ 4 = 8 := by decide
  have hlen : 4 ≤ [24, 23, 22, 21, 0, 0, 0, 0].length := by decide
  have hnd : (29 :: 25 :: [24, 23, 22, 21, 0, 0, 0, 0].take 4).Nodup := by decide
  have hctrl : (0 : UInt8) ≤ 7 := by decide
  have hcareful : Careful 2 16 false [.position 0 1, .puts [72, 105, 0]] :=
    ⟨fun _ => by decide, rfl, trivial⟩
  obtain ⟨r, hinit, -, hglass, hcx, -⟩ :=
    lcd_shows hrows hcols hbits hlen hnd hctrl (CArray.fill (2 * 16) 65)
    (fun _ => 0xA5) woken [.position 0 1, .puts [72, 105, 0]] hcareful
  refine ⟨r, hinit, ?_, ?_, ?_, hcx⟩
  · rw [hglass 0 (by decide) 0 (by decide)]
    cases hinit
    rfl
  · rw [hglass 1 (by decide) 0 (by decide)]
    cases hinit
    rfl
  · rw [hglass 1 (by decide) 1 (by decide)]
    cases hinit
    rfl

/-! ## 4. A text right after `lcdInit` -/

/-- A text that ends before the driver sees the end of a row, from wherever the
controller is. By induction on the text, the grid's cursor being where the
controller is and the driver's one behind. -/
theorem triple_text {w : Wires} {rows cols : ℕ} (hrows : rows ≤ 4) (hcols : cols ≤ 20)
    (noise : ℕ → UInt8)
    (text : List UInt8) : ∀ (d : Driver) (g : Lcd rows cols), Wired w d.lcd → d.lcd.cols = cols →
    d.lcd.cx + text.length < cols →
    g.cx + text.length ≤ cols → g.cy < rows →
    Triple w noise (fun _ c => Shows true d g c) (feed lcdPutchar d text).2
      (fun _ c => Shows false (feed lcdPutchar d text).1 (text.foldl DevLib.lcdPutchar g) c)
    ∧ (feed lcdPutchar d text).1.lcd.cx = d.lcd.cx + text.length
    ∧ (feed lcdPutchar d text).1.lcdControl = d.lcdControl := by
  have hless : ∀ {d : Driver} {g : Lcd rows cols} {c : Chip} {known : Bool}, Shows known d g c →
      Shows false d g c :=
    fun h => ⟨h.bus, h.two, h.on, h.increment, h.shifting, h.shift,
      fun hk => absurd hk Bool.false_ne_true, h.cells⟩
  induction text with
  | nil =>
    exact fun _ _ _ _ _ _ _ =>
      ⟨Triple.nil.mono (fun _ _ h => h) fun _ _ h => hless h, rfl, rfl⟩
  | cons data text ih =>
      intro d g hw hbreadth hd hg hy
      rw [List.length_cons] at hd hg
      have hend : d.lcd.cx + 1 ≠ d.lcd.cols := by omega
      have hput : (lcdPutchar d data).1 = { d with lcd := { d.lcd with cx := d.lcd.cx + 1 } } := by
        simp only [lcdPutchar, if_neg hend]
      have hfirst : Triple w noise (fun _ c => Shows true d g c) (lcdPutchar d data).2
          (fun _ c => Shows (decide (g.cx + 1 < cols)) (lcdPutchar d data).1
            (DevLib.lcdPutchar g data) c) :=
        triple_putchar hrows hcols hw hend (by omega) hy data
      have hw' : Wired w (lcdPutchar d data).1.lcd := by
        rw [hput]
        exact ⟨hw.1, hw.2, hw.3, hw.4, hw.5, hw.6⟩
      have hcx : (lcdPutchar d data).1.lcd.cx = d.lcd.cx + 1 := by rw [hput]
      have hcontrol : (lcdPutchar d data).1.lcdControl = d.lcdControl := by rw [hput]
      by_cases hlt : g.cx + 1 < cols
      · obtain ⟨hgx, hgy⟩ := putchar_cursor g data (by omega)
        obtain ⟨hrest, hlast, hctrl⟩ := ih (lcdPutchar d data).1 (DevLib.lcdPutchar g data) hw'
          (by rw [hput]; exact hbreadth) (by omega) (by omega) (by omega)
        rw [decide_eq_true hlt] at hfirst
        refine ⟨hfirst.append hrest, hlast.trans ?_, hctrl.trans hcontrol⟩
        rw [hcx, List.length_cons]
        omega
      -- the last cell of the row, and so the last character
      · obtain rfl : text = [] := List.length_eq_zero_iff.mp (by omega)
        refine ⟨?_, hcx, hcontrol⟩
        rw [feed_cons, feed_nil, List.append_nil]
        exact hfirst.mono (fun _ _ h => h) fun _ _ h => hless h

theorem getD_append_replicate (as : List UInt8) (n x : ℕ) (b : UInt8) :
    (as ++ List.replicate n b).getD x b = as.getD x b := by
  rw [List.getD_eq_getElem?_getD, List.getD_eq_getElem?_getD]
  by_cases hx : x < as.length
  · rw [List.getElem?_append_left hx]
  · have hnone : as[x]? = none := List.getElem?_eq_none (by omega)
    rw [hnone, List.getElem?_append_right (by omega), List.getElem?_replicate]
    split <;> rfl

/-- A blank grid, with a text from its second cell on: the first cell stays
blank. -/
theorem text_from_second {rows cols x : ℕ} (hrows : 0 < rows) (text : List UInt8)
    (hfit : text.length < cols) :
    (text.foldl DevLib.lcdPutchar
        (⟨CArray.fill (rows * cols) blank, 1, 0⟩ : Lcd rows cols)).cells.bytes.getD x blank
      = (blank :: text).getD x blank := by
  have hsize : cols ≤ rows * cols := Nat.le_mul_of_pos_left _ hrows
  have hfill : blank :: List.replicate (rows * cols - 1) blank
      = List.replicate (rows * cols) blank := by
    rw [← List.replicate_succ, Nat.sub_add_cancel (by omega)]
  by_cases hne : text = []
  · subst hne
    change (List.replicate (rows * cols) blank).getD x blank = _
    rw [← hfill]
    exact getD_append_replicate [blank] _ x blank
  · have hpos := List.length_pos_of_ne_nil hne
    have hat : (⟨CArray.fill (rows * cols) blank, 1, 0⟩ : Lcd rows cols)
        = Lcd.at (CArray.fill (rows * cols) blank) 1 := by
      rw [Lcd.at, Nat.mod_eq_of_lt (by omega), Nat.div_eq_of_lt (by omega)]
    rw [hat, foldl_putchar_at text _ 1 hne (by omega), Lcd.at, CArray.write_bytes _ _ _ (by omega)]
    change ((List.replicate (rows * cols) blank).take 1 ++ text
      ++ (List.replicate (rows * cols) blank).drop (1 + text.length)).getD x blank = _
    rw [List.take_replicate, List.drop_replicate, Nat.min_eq_left (by omega), getD_append_replicate]
    rfl

/-- **A text written right after `lcdInit` stands one cell too far to the
right**: the first cell stays blank, while the driver counts the text from
it. -/
theorem lcdInit_text_ahead {rows cols : ℕ} (hrows : 0 < rows ∧ rows ≤ 4)
    (hcols : 0 < cols ∧ cols ≤ 20)
    (hbits : bits = 4 ∨ bits = 8) (hlen : bits ≤ pins.length)
    (hnd : (rs :: strb :: pins.take bits).Nodup)
    {lcdControl : UInt8} (hctrl : lcdControl ≤ 7) (noise : ℕ → UInt8)
    (b : Bench) (text : List UInt8) (hnul : ∀ b ∈ text, b ≠ 0) (hfit : text.length < cols) :
    ∃ r, lcdInit lcdControl rows cols bits rs strb pins = some r
      ∧ let s := lcdPuts r.1 (text ++ [0])
        let c := (b.run (wires bits rs strb pins) noise (r.2 ++ s.2)).chip
        (∀ x < cols, c.glass (rowOff 0) x = (blank :: text).getD x blank)
          ∧ s.1.lcd.cx = text.length := by
  let cells : CArray (rows * cols) := CArray.fill (rows * cols) blank
  obtain ⟨r, hinit, htracks, hidle, hfresh⟩ :=
    lcdInit_ahead ⟨hrows.1, by omega⟩ hcols hbits hlen hnd hctrl cells
    noise b
  have htext : (text ++ [0]).takeWhile (· ≠ 0) = text := by
    rw [List.takeWhile_append_of_pos (by simpa using hnul)]
    simp
  have hblank := hfresh.shows_blank cells
  have hstart : Shows true r.1 (⟨cells, 1, 0⟩ : Lcd rows cols)
      (b.run (wires bits rs strb pins) noise r.2).chip :=
    ⟨hblank.bus, hblank.two, hblank.on, hblank.increment, hblank.shifting, hblank.shift,
      fun _ => ⟨hfresh.memory, hfresh.ac⟩, hblank.cells⟩
  have hcursor : r.1.lcd.cx = 0 := htracks.cx
  obtain ⟨hwrite, hcx, hcontrol⟩ :=
    triple_text hrows.2 hcols.2 noise text r.1 ⟨cells, 1, 0⟩ htracks.wired
    htracks.breadth (by omega) (by simp only; omega) hrows.1
  refine ⟨r, hinit, ?_, ?_⟩
  · intro x hx
    rw [lcdPuts, htext, run_append]
    obtain ⟨-, hshows⟩ := hwrite _ hidle hstart
    rw [hshows.glass hrows.2 hcols.2 hx hrows.1, hcontrol, if_pos hfresh.lit,
      Nat.mul_zero, Nat.zero_add, text_from_second hrows.1 text hfit]
  · rw [lcdPuts, htext, hcx, hcursor, Nat.zero_add]

/-- `Hi` on the display that woke up in the middle of a byte. -/
theorem lcdInit_text_ahead_hi :
    ∃ r, lcdInit 0 2 16 4 29 25 [24, 23, 22, 21, 0, 0, 0, 0] = some r
      ∧ let s := lcdPuts r.1 [72, 105, 0]
        let c := (woken.run (wires 4 29 25 [24, 23, 22, 21, 0, 0, 0, 0])
            (fun _ => 0xA5) (r.2 ++ s.2)).chip
        c.glass (rowOff 0) 0 = blank ∧ c.glass (rowOff 0) 1 = 72 ∧ c.glass (rowOff 0) 2 = 105
          ∧ s.1.lcd.cx = 2 := by
  have hrows : 0 < 2 ∧ 2 ≤ 4 := by decide
  have hcols : 0 < 16 ∧ 16 ≤ 20 := by decide
  have hbits : 4 = 4 ∨ 4 = 8 := by decide
  have hlen : 4 ≤ [24, 23, 22, 21, 0, 0, 0, 0].length := by decide
  have hnd : (29 :: 25 :: [24, 23, 22, 21, 0, 0, 0, 0].take 4).Nodup := by decide
  have hctrl : (0 : UInt8) ≤ 7 := by decide
  have hnul : ∀ b ∈ [(72 : UInt8), 105], b ≠ 0 := by simp
  obtain ⟨r, hinit, hglass, hcx⟩ :=
    lcdInit_text_ahead hrows hcols hbits hlen hnd hctrl (fun _ => 0xA5) woken [72, 105]
    hnul (by decide)
  exact ⟨r, hinit, hglass 0 (by decide), hglass 1 (by decide), hglass 2 (by decide), hcx⟩

end Init

end AutoMag.DevLib.Pins
