/-
`Client/Glass.lean` -- from the server's bytes to the glass of the LCD.

`Client/Display.lean` says what stands on the grid of `telnet-projekat1.c`'s display after a
run. Here the display is the real one: a controller on the pins `initLcd` names, driven by
`lcd.c`. The calls of `initLcd` and `lcdScreen` keep to what the driver needs of them (each
text is positioned), so the glass shows the grid, whatever the controller was doing before.
-/
import AutoMag.Client.Delivery
import AutoMag.Client.Display
import AutoMag.DevLib.LcdGlass

set_option autoImplicit false

namespace AutoMag.Client

open AutoMag.CMemory AutoMag.DevLib AutoMag.Machine

def LCD_RS : ℕ := 29
def LCD_E : ℕ := 25

/-- `LCD_D0` to `LCD_D7`; the last four are not used with four wires. -/
def LCD_D : List ℕ := [24, 23, 22, 21, 0, 0, 0, 0]

/-- What the program calls the driver for until it has shown `rs`. -/
def lcd_calls (rs : List Reading) : List DevLib.Call := initLcd_calls ++ rs.flatMap lcdScreen_calls

/-- On the grid they are what `Client/Display.lean` has: the calls of one
reading after the other. The two functions are the same lists of calls there and
here. -/
theorem draw_lcd_calls (cells : CArray (2 * 16)) (rs : List Reading) :
    (lcd_calls rs).foldl DevLib.Call.draw (lcdInit cells) = display cells rs := by
  rw [lcd_calls, List.foldl_append, List.foldl_flatMap]
  rfl

/-- Every text is positioned, so none is written where `lcdInit` has left the
controller. -/
theorem careful_lcd_calls (rs : List Reading) : Pins.Careful 2 16 false (lcd_calls rs) := by
  have hstart : Pins.Careful 2 16 false initLcd_calls :=
    ⟨trivial, fun _ => by decide, rfl, fun _ => by decide, rfl, trivial⟩
  have hscreen : ∀ (rs : List Reading) (known : Bool), Pins.Careful 2 16 known
      (rs.flatMap lcdScreen_calls) := by
    intro rs
    induction rs with
    | nil => exact fun _ => trivial
    | cons r rs ih =>
        intro known
        rw [List.flatMap_cons, Pins.careful_append]
        exact ⟨⟨fun _ => by decide, rfl, fun _ => by decide, rfl, trivial⟩, ih _⟩
  rw [lcd_calls, Pins.careful_append]
  exact ⟨hstart, hscreen rs _⟩

/-- Nothing here switches the display off. -/
theorem text_lcd_calls (rs : List Reading) : ∀ call ∈ lcd_calls rs, call.IsText := by
  intro call hcall
  rcases List.mem_append.mp hcall with h | h
  · simp only [initLcd_calls, List.mem_cons, List.not_mem_nil, or_false] at h
    rcases h with rfl | rfl | rfl | rfl | rfl <;> trivial
  · obtain ⟨r, -, h⟩ := List.mem_flatMap.mp h
    simp only [lcdScreen_calls, List.mem_cons, List.not_mem_nil, or_false] at h
    rcases h with rfl | rfl | rfl | rfl <;> trivial

/-- The display on the bench, after `initLcd` and one `lcdScreen` for each
reading. -/
def glass (noise : ℕ → UInt8) (b : Hd44780.Bench) (rs : List Reading) : Option Hd44780.Chip := do
  let r ← Pins.lcdInit 0 2 16 4 LCD_RS LCD_E LCD_D
  let s := feed DevLib.Call.act r.1 (lcd_calls rs)
  return (b.run (Pins.wires 4 LCD_RS LCD_E LCD_D) noise (r.2 ++ s.2)).chip

/-- The sixteen cells of a line. -/
def line (c : Hd44780.Chip) (y : ℕ) : List UInt8 := (List.range 16).map (c.glass (Pins.rowOff y))

/-- **The glass shows the grid**, from any state of the controller. This is
`lcd_shows` at the program's own geometry and pins. -/
theorem glass_display (noise : ℕ → UInt8) (b : Hd44780.Bench) (cells : CArray (2 * 16))
    (rs : List Reading) :
    ∃ c, glass noise b rs = some c ∧ ∀ y < 2, line c y = (display cells rs).row y := by
  have hnd : (LCD_RS :: LCD_E :: LCD_D.take 4).Nodup := by decide
  have hctrl : (0 : UInt8) ≤ 7 := by decide
  obtain ⟨r, hinit, hlit, hcells, -⟩ :=
    Pins.lcd_shows ⟨by decide, by decide⟩ ⟨by decide, by decide⟩ (Or.inl rfl)
    (by decide) hnd hctrl cells noise b (lcd_calls rs) (careful_lcd_calls rs)
  have hrun : glass noise b rs = some (b.run (Pins.wires 4 LCD_RS LCD_E LCD_D) noise
      (r.2 ++ (feed DevLib.Call.act r.1 (lcd_calls rs)).2)).chip := by
    simp only [glass]
    rw [show Pins.lcdInit 0 2 16 4 LCD_RS LCD_E LCD_D = some r from hinit]
    rfl
  refine ⟨_, hrun, fun y hy => ?_⟩
  have hlit' : Pins.lit (feed DevLib.Call.act r.1 (lcd_calls rs)).1.lcdControl = true := by
    rw [Pins.lcdControl_run _ _ (text_lcd_calls rs)]
    exact hlit
  have hsize := (display cells rs).cells.size
  apply List.ext_getElem
  · simp only [line, Lcd.row, List.length_map, List.length_range, List.length_take,
      List.length_drop, hsize]
    omega
  · intro x hx hx'
    have hx16 : x < 16 := by simpa [line] using hx
    have hcell := hcells y hy x hx16
    rw [hlit', if_pos rfl, draw_lcd_calls] at hcell
    simp only [line, Lcd.row, List.getElem_map, List.getElem_range, List.getElem_take,
      List.getElem_drop]
    rw [hcell]
    exact (List.getElem_eq_getD _).symm

/-- **The glass in a run.** Whatever the server sends and the user types, and
whatever state the display woke up in: once something is shown, the two lines of
the glass are those of the last reading, padded with blanks, exactly when its
temperature has at most two digits and no earlier speed had more digits than the
last one. -/
theorem main_loop_glass_iff (term : List UInt8) (buffer recieve data : CArray 512)
    (stdin : List Result) (scanfs : List (Option Int32)) (socket : List Result) (polls : List Poll)
    (noise : ℕ → UInt8) (b : Hd44780.Bench) (vs : List Reading) (v : Reading)
    (hshown : shown (main_loop term (Main.start buffer recieve data stdin scanfs socket)
      polls).session.trace = vs ++ [v]) :
    ∃ c, glass noise b (shown (main_loop term (Main.start buffer recieve data stdin scanfs socket)
        polls).session.trace) = some c
      ∧ (line c 0 = padded (speed_text v.speed) ∧ line c 1 = padded
        (level_text v.fuel v.temperature)
        ↔ v.temperature < 100 ∧ ∀ r ∈ vs, width r.speed ≤ width v.speed) := by
  let cells : CArray (2 * 16) := CArray.fill (2 * 16) blank
  obtain ⟨c, hc, hline⟩ :=
    glass_display noise b cells (shown (main_loop term (Main.start buffer recieve data
    stdin scanfs socket) polls).session.trace)
  refine ⟨c, hc, ?_⟩
  rw [hline 0 (by decide), hline 1 (by decide)]
  exact main_loop_display_iff term _ _ _ stdin scanfs socket polls cells hshown

/-- One message, on a display woken up in the middle of a byte. -/
theorem main_loop_glass_iff_woken :
    ∃ c, glass (fun _ => 0xA5) Pins.woken
      (shown (main_loop [] (Main.start (.fill 512 0) (.fill 512 0) (.fill 512 0)
        [] [] sample_message.results) [.ready false true [] []]).session.trace) = some c
      ∧ line c 0 = padded (speed_text 64) ∧ line c 1 = padded (level_text 5 90) := by
  have hshown : shown (main_loop [] (Main.start (.fill 512 0) (.fill 512 0) (.fill 512 0) [] []
      sample_message.results) [.ready false true [] []]).session.trace = [] ++ [⟨64, 5, 90⟩] := by
        decide +kernel
  obtain ⟨c, hc, hiff⟩ :=
    main_loop_glass_iff [] (.fill 512 0) (.fill 512 0) (.fill 512 0) [] [] sample_message.results
    [.ready false true [] []] (fun _ => 0xA5) Pins.woken [] ⟨64, 5, 90⟩ hshown
  exact ⟨c, hc, hiff.mpr ⟨by decide, by simp⟩⟩

end AutoMag.Client
