/-
`Client/Display.lean` -- what stands on the LCD after a history of readings.

`lcdScreen` writes both rows in place and clears neither, and the rows are as long
as their numbers. The second row is always what it should be. The first one is
`Speed : <speed> km/h` only if no earlier speed had more digits (else the end of the
longer text is still there) and the temperature has at most two (else the last of
the seventeen characters of the second row lands on the `S`).
-/
import AutoMag.DevLib.Lcd
import AutoMag.Client.Menu

set_option autoImplicit false

namespace AutoMag.Client

open AutoMag.CMemory AutoMag.DevLib

/-! ## The two functions -/

/-- `val1` to `val4`: the fuel gauge. -/
def gauge (fuel : ℕ) : List UInt8 :=
  if fuel = 6 ∨ fuel = 5 then [0xff, 0xff, 0xff, chr '-']
  else if fuel = 4 ∨ fuel = 3 then [0xff, 0xff, chr '-', chr '-']
  else if fuel = 2 ∨ fuel = 1 then [0xff, chr '-', chr '-', chr '-']
  else [0xff, 0xff, 0xff, 0xff]

/-- `Speed : <speed> km/h`. -/
def speed_text (speed : ℕ) : List UInt8 := ascii "Speed : " ++ decimal speed ++ ascii " km/h"

/-- `F:<gauge> T:<temperature> C` and an apostrophe. -/
def level_text (fuel temperature : ℕ) : List UInt8 :=
  ascii "F:" ++ gauge fuel ++ ascii " T:" ++ decimal temperature ++ ascii " C" ++ [0x27]

/-- The calls of `lcdScreen`. -/
def lcdScreen_calls (r : Reading) : List DevLib.Call :=
  [.position 0 0, .puts (speed_text r.speed ++ [0]),
    .position 0 1, .puts (level_text r.fuel r.temperature ++ ascii "  " ++ [0])]

/-- The calls of `initLcd` after `lcdInit`. -/
def initLcd_calls : List DevLib.Call :=
  [.clear, .position 0 0, .puts (ascii "Speed : " ++ [0]),
    .position 0 1, .puts (ascii "F:---- T:" ++ [0])]

/-- `lcdScreen`. -/
def lcdScreen (lcd : Lcd 2 16) (r : Reading) : Lcd 2 16 :=
  (lcdScreen_calls r).foldl DevLib.Call.draw lcd

/-- `initLcd`. -/
def initLcd (cells : CArray (2 * 16)) : Lcd 2 16 :=
  initLcd_calls.foldl DevLib.Call.draw (lcdInit cells)

/-- Two texts, one for each line. Neither row is cleared before, so a text shows
what the longer one before it had behind its end. -/
theorem two_texts (lcd : Lcd 2 16) (top bottom : List UInt8) :
    [DevLib.Call.position 0 0, .puts top, .position 0 1, .puts bottom].foldl DevLib.Call.draw lcd
      = lcdPuts (lcdPosition (lcdPuts (lcdPosition lcd 0 0) top) 0 1) bottom := by
  have hfirst : ∀ g : Lcd 2 16, (DevLib.Call.position 0 0).draw g = lcdPosition g 0 0 :=
    fun g => draw_position g 0 0
  have hsecond : ∀ g : Lcd 2 16, (DevLib.Call.position 0 1).draw g = lcdPosition g 0 1 :=
    fun g => draw_position g 0 1
  simp only [List.foldl_cons, List.foldl_nil, hfirst, hsecond, draw_puts]

/-- The display after `initLcd` and one `lcdScreen` for each reading. -/
def display (cells : CArray (2 * 16)) (rs : List Reading) : Lcd 2 16 :=
  rs.foldl lcdScreen (initLcd cells)

/-! ## Values -/

/-- The ranges of the three values. -/
def Reading.InRange (r : Reading) : Prop := r.speed < 256 ∧ r.temperature < 256 ∧ r.fuel < 16

instance (r : Reading) : Decidable r.InRange := inferInstanceAs (Decidable (_ ∧ _))

theorem htoi_lt (c : UInt8) : htoi c < 16 := by
  have hle : ∀ i : Fin 256, htoi (UInt8.ofNat i) < 16 := by decide +kernel
  simpa using hle ⟨c.toNat, c.toNat_lt⟩

/-- Whatever the buffer holds, the values taken out of it are in range: two
hexadecimal digits make a byte. -/
theorem reading_inRange (d : List UInt8) : (reading d).InRange := by
  have h9 := htoi_lt (d.getD 9 0)
  have h10 := htoi_lt (d.getD 10 0)
  have h21 := htoi_lt (d.getD 21 0)
  have h22 := htoi_lt (d.getD 22 0)
  refine ⟨?_, ?_, htoi_lt _⟩ <;> simp only [reading, Nat.shiftLeft_eq] <;> omega

/-- How many characters `%d` writes. -/
def width (v : ℕ) : ℕ := (decimal v).length

/-- The numbers on the display have one to three digits. -/
theorem width_le_three : ∀ v < 256, 1 ≤ width v ∧ width v ≤ 3 ∧ (width v = 3 ↔ 100 ≤ v) := by
  decide +kernel

/-- A text at the left end of an otherwise blank row. -/
def padded (text : List UInt8) : List UInt8 :=
  text ++ List.replicate (16 - text.length) blank

/-- The full cells of the gauge. -/
def full (fuel : ℕ) : ℕ := (gauge fuel).count 0xff

/-- The gauge falls with the fuel, except that an empty tank shows a full gauge:
the source has no case for 0. -/
theorem full_le_iff {f f' : ℕ} (hle : f ≤ f') : full f ≤ full f' ↔ (f = 0 → f' = 0 ∨ 7 ≤ f') := by
  -- the gauge tells six levels apart and takes everything else for full
  have hfew : ∀ f' < 7, ∀ f ≤ f', full f ≤ full f' ↔ (f = 0 → f' = 0 ∨ 7 ≤ f') := by decide
  have hmost : ∀ f, full f ≤ 4 := fun f =>
    (List.count_le_length).trans (by unfold gauge; split_ifs <;> decide)
  by_cases hlt : f' < 7
  · exact hfew f' hlt f hle
  · have hfull : full f' = 4 := by
      unfold full gauge
      rw [if_neg (by omega), if_neg (by omega), if_neg (by omega)]
      decide
    have hf := hmost f
    constructor
    · exact fun _ _ => .inr (by omega)
    · exact fun _ => by omega

/-! ## Writing over a row -/

/-- A text written over the front of a row. -/
def overwrite (text row : List UInt8) : List UInt8 := text ++ row.drop text.length

/-- The two rows of a display whose cursor is somewhere on the grid. -/
structure Shows (lcd : Lcd 2 16) (top bottom : List UInt8) : Prop where
  cursor : ∃ p, lcd = Lcd.at lcd.cells p
  bytes : lcd.cells.bytes = top ++ bottom
  top_length : top.length = 16

namespace Shows

variable {lcd : Lcd 2 16} {top bottom : List UInt8}

theorem bottom_length (h : Shows lcd top bottom) : bottom.length = 16 := by
  have hsize := lcd.cells.size
  rw [h.bytes, List.length_append, h.top_length] at hsize
  omega

theorem row_zero (h : Shows lcd top bottom) : lcd.row 0 = top := by
  simp [Lcd.row, h.bytes, List.take_left' h.top_length]

theorem row_one (h : Shows lcd top bottom) : lcd.row 1 = bottom := by
  simp only [Lcd.row, Nat.mul_one, h.bytes, List.drop_left' h.top_length]
  exact List.take_of_length_le h.bottom_length.le

/-- A text written from the start of the first row, within that row. What it
does not reach of the row stays. -/
theorem puts_top (h : Shows lcd top bottom) (text : List UInt8) (hne : text ≠ [])
    (hnul : ∀ b ∈ text, b ≠ 0) (hfit : text.length ≤ 16) :
    Shows (lcdPuts (lcdPosition lcd 0 0) (text ++ [0])) (overwrite text top) bottom := by
  obtain ⟨p, hp⟩ := h.cursor
  have hput := lcdPuts_at lcd.cells 0 text hne hnul (by omega)
  rw [hp, lcdPosition_at lcd.cells p 0 (by omega) (by omega), Nat.mul_zero, hput]
  refine ⟨⟨_, rfl⟩, ?_, ?_⟩
  · have hbytes : (lcd.cells.write 0 text).bytes = text ++ lcd.cells.bytes.drop text.length :=
      lcd.cells.write_zero_bytes text (by omega)
    rw [Lcd.at, hbytes, h.bytes, overwrite,
      List.drop_append_of_le_length (by rw [h.top_length]; exact hfit), List.append_assoc]
  · simp only [overwrite, List.length_append, List.length_drop, h.top_length]
    omega

/-- The second row is the second half of the array. -/
theorem write_bottom (h : Shows lcd top bottom) (text : List UInt8) (hfit : text.length ≤ 16) :
    (lcd.cells.write 16 text).bytes = top ++ overwrite text bottom := by
  rw [CArray.write_bytes _ _ _ (by omega), h.bytes, List.take_left' h.top_length, overwrite,
    List.drop_append, List.drop_eq_nil_of_le (by rw [h.top_length]; omega), h.top_length]
  simp

/-- A text written from the start of the second row, within that row. -/
theorem puts_bottom (h : Shows lcd top bottom) (text : List UInt8) (hne : text ≠ [])
    (hnul : ∀ b ∈ text, b ≠ 0) (hfit : text.length ≤ 16) :
    Shows (lcdPuts (lcdPosition lcd 0 1) (text ++ [0])) top (overwrite text bottom) := by
  obtain ⟨p, hp⟩ := h.cursor
  have hput := lcdPuts_at lcd.cells 16 text hne hnul (by omega)
  rw [hp, lcdPosition_at lcd.cells p 1 (by omega) (by omega), Nat.mul_one, hput]
  exact ⟨⟨_, rfl⟩, h.write_bottom text hfit, h.top_length⟩

/-- One character more than the second row holds: it lands at the start of the
first. A temperature of three digits makes the text that long. -/
theorem puts_bottom_wrap (h : Shows lcd top bottom) (text : List UInt8) (b : UInt8) (hb : b ≠ 0)
    (hnul : ∀ b ∈ text, b ≠ 0) (hlen : text.length = 16) :
    Shows (lcdPuts (lcdPosition lcd 0 1) (text ++ [b] ++ [0])) (overwrite [b] top) text := by
  obtain ⟨p, hp⟩ := h.cursor
  have hne : text ≠ [] := by
    rintro rfl
    cases hlen
  have htext : (text ++ [b] ++ [0]).takeWhile (· ≠ 0) = text ++ [b] := by
    rw [List.takeWhile_append_of_pos]
    · simp
    · simp only [List.mem_append, List.mem_singleton, decide_eq_true_eq]
      rintro c (hc | rfl)
      · exact hnul c hc
      · exact hb
  have hrow : (lcd.cells.write 16 text).bytes = top ++ text := by
    rw [h.write_bottom text hlen.le, overwrite, hlen, List.drop_eq_nil_of_le h.bottom_length.le,
      List.append_nil]
  -- the sixteen characters fill the row, and the cursor goes on to the start of the first
  have hput := foldl_putchar_at text lcd.cells 16 hne (by omega)
  have hwrap : (16 + text.length) % (2 * 16) = 0 := by rw [hlen]
  rw [hp, lcdPosition_at lcd.cells p 1 (by omega) (by omega), Nat.mul_one, lcdPuts, htext,
    List.foldl_append, hput, hwrap, List.foldl_cons, List.foldl_nil,
    lcdPutchar_at _ 0 b (by omega)]
  refine ⟨⟨_, rfl⟩, ?_, ?_⟩
  · have hbytes : ((lcd.cells.write 16 text).write 0 [b]).bytes
        = [b] ++ (lcd.cells.write 16 text).bytes.drop 1 := CArray.write_zero_bytes _ [b] (by simp)
    rw [Lcd.at, hbytes, hrow, overwrite, List.length_singleton,
      List.drop_append_of_le_length (by rw [h.top_length]; omega), List.append_assoc]
  · simp only [overwrite, List.length_append, List.length_drop, List.length_singleton, h.top_length]

end Shows

/-! ## One call -/

/-- The text of the speed: thirteen characters, and the digits. -/
theorem speed_text_length (speed : ℕ) : (speed_text speed).length = 13 + width speed := by
  have h1 : (ascii "Speed : ").length = 8 := rfl
  have h2 : (ascii " km/h").length = 5 := rfl
  simp only [speed_text, width, List.length_append, h1, h2]
  omega

theorem speed_text_ne_zero (speed : ℕ) : ∀ b ∈ speed_text speed, b ≠ 0 := by
  intro b hb
  simp only [speed_text, List.mem_append] at hb
  rcases hb with (hb | hb) | hb
  · exact (by decide : Plain "Speed : ") b hb
  · exact decimal_ne_zero _ b hb
  · exact (by decide : Plain " km/h") b hb

theorem gauge_spec (fuel : ℕ) : (gauge fuel).length = 4 ∧ 0 ∉ gauge fuel := by
  unfold gauge
  split_ifs <;> decide

/-- The text of the second row: twelve characters with the gauge, and the
digits. -/
theorem level_text_length (fuel temperature : ℕ) :
    (level_text fuel temperature).length = 12 + width temperature := by
  have h1 : (ascii "F:").length = 2 := rfl
  have h2 : (ascii " T:").length = 3 := rfl
  have h3 : (ascii " C").length = 2 := rfl
  simp only [level_text, width, List.length_append, h1, h2, h3, (gauge_spec fuel).1,
    List.length_singleton]
  omega

theorem level_text_ne_zero (fuel temperature : ℕ) :
    ∀ b ∈ level_text fuel temperature, b ≠ 0 := by
  intro b hb
  simp only [level_text, List.mem_append, List.mem_singleton] at hb
  rcases hb with ((((hb | hb) | hb) | hb) | hb) | rfl
  · exact (by decide : Plain "F:") b hb
  · intro h0
    exact (gauge_spec fuel).2 (h0 ▸ hb)
  · exact (by decide : Plain " T:") b hb
  · exact decimal_ne_zero _ b hb
  · exact (by decide : Plain " C") b hb
  · decide

/-- What a three-digit temperature does to the first row. -/
def wrapped (temperature : ℕ) (row : List UInt8) : List UInt8 :=
  if temperature < 100 then row else overwrite [blank] row

/-- **One `lcdScreen`.** The second row is right, given that its last cell was
blank; the first one is the speed written over what was there. -/
theorem lcdScreen_shows {lcd : Lcd 2 16} {top bottom : List UInt8} (h : Shows lcd top bottom)
    (hlast : bottom.drop 15 = [blank]) (r : Reading) (hr : r.InRange) :
    Shows (lcdScreen lcd r) (wrapped r.temperature (overwrite (speed_text r.speed) top))
      (padded (level_text r.fuel r.temperature)) := by
  obtain ⟨hs1, hs3, -⟩ := width_le_three r.speed hr.1
  obtain ⟨ht1, ht3, ht⟩ := width_le_three r.temperature hr.2.1
  have hslen := speed_text_length r.speed
  have hlen := level_text_length r.fuel r.temperature
  have hnul := level_text_ne_zero r.fuel r.temperature
  have htop := h.puts_top (speed_text r.speed) (by intro h0; simp [h0] at hslen; omega)
    (speed_text_ne_zero r.speed) (by omega)
  have hblanks : ascii "  " = [blank, blank] := by decide
  rw [lcdScreen, lcdScreen_calls, two_texts, hblanks]
  -- from here on only the length of the text counts
  generalize level_text r.fuel r.temperature = text at hlen hnul ⊢
  have hnul1 : ∀ b ∈ text ++ [blank], b ≠ 0 := by
    simp only [List.mem_append, List.mem_singleton]
    rintro b (hb | rfl)
    · exact hnul b hb
    · decide
  have hnul2 : ∀ b ∈ text ++ [blank, blank], b ≠ 0 := by
    simp only [List.mem_append, List.mem_cons, List.not_mem_nil, or_false]
    rintro b (hb | rfl | rfl)
    · exact hnul b hb
    · decide
    · decide
  by_cases hlt : r.temperature < 100
  · have hrow : overwrite (text ++ [blank, blank]) bottom = padded text := by
      -- one digit: the text and its two blanks end one cell early, and that cell was blank;
      -- two digits: they fill the row
      have hb := h.bottom_length
      obtain hw | hw : width r.temperature = 1 ∨ width r.temperature = 2 := by omega
      · rw [hw] at hlen
        simp [overwrite, padded, hlen, hlast, List.replicate]
      · rw [hw] at hlen
        simp [overwrite, padded, hlen, List.replicate, hb]
    have hbot := htop.puts_bottom (text ++ [blank, blank]) (by simp) hnul2 (by simp; omega)
    rw [hrow] at hbot
    rw [wrapped, if_pos hlt]
    exact hbot
  · have hrow : padded text = text ++ [blank] := by
      have hw : width r.temperature = 3 := by omega
      rw [hw] at hlen
      simp [padded, hlen]
    -- three digits: the second blank is the seventeenth character
    have hbot := htop.puts_bottom_wrap (text ++ [blank]) blank (by decide) hnul1 (by simp; omega)
    rw [wrapped, if_neg hlt, hrow]
    simpa using hbot

/-- The blank at the end of the second row is there again for the next call. So
the hypothesis of `lcdScreen_shows` carries over a history. -/
theorem padded_level_last (fuel : ℕ) {temperature : ℕ} (ht : temperature < 256) :
    (padded (level_text fuel temperature)).drop 15 = [blank] := by
  have hlen := level_text_length fuel temperature
  have hw := width_le_three temperature ht
  rw [padded, List.drop_append, List.drop_eq_nil_of_le (by omega), hlen, List.drop_replicate]
  have hone : 16 - (12 + width temperature) - (15 - (12 + width temperature)) = 1 := by omega
  rw [hone]
  rfl

/-! ## What is left of longer texts -/

/-- The first row when the longest number written on it had `m` digits: blank
behind that text, and its last letter is there. -/
structure Stale (m : ℕ) (top : List UInt8) : Prop where
  length_eq : top.length = 16
  behind : top.drop (13 + m) = List.replicate (3 - m) blank
  last : 0 < m → top[12 + m]? = some (chr 'h')

theorem over_speed_length {top : List UInt8} (htop : top.length = 16) {speed : ℕ}
    (hs : speed < 256) : (overwrite (speed_text speed) top).length = 16 := by
  have hw := width_le_three speed hs
  simp only [overwrite, List.length_append, List.length_drop, speed_text_length, htop]
  omega

/-- Cells from the second on do not see the wrap. -/
theorem wrapped_drop (temperature : ℕ) {row : List UInt8} (hrow : row ≠ []) (n : ℕ) :
    (wrapped temperature row).drop (n + 1) = row.drop (n + 1) := by
  unfold wrapped
  split_ifs
  · rfl
  · cases row with
    | nil => exact absurd rfl hrow
    | cons a row => rfl

theorem wrapped_getElem? (temperature : ℕ) {row : List UInt8} (hrow : row ≠ []) (n : ℕ) :
    (wrapped temperature row)[n + 1]? = row[n + 1]? := by
  have h := congrArg (fun l => l[0]?) (wrapped_drop temperature hrow n)
  simpa using h

theorem wrapped_length (temperature : ℕ) {row : List UInt8} (hrow : row ≠ []) :
    (wrapped temperature row).length = row.length := by
  unfold wrapped
  split_ifs
  · rfl
  · cases row with
    | nil => exact absurd rfl hrow
    | cons a row => simp [overwrite]

/-- The last letter of the text, which is what a shorter one leaves behind. -/
theorem speed_text_last (speed : ℕ) : (speed_text speed)[12 + width speed]? = some (chr 'h') := by
  have hlen := speed_text_length speed
  -- the last letter cut off, so that it can be looked up
  have hsplit : speed_text speed
      = ascii "Speed : " ++ decimal speed ++ ascii " km/" ++ [chr 'h'] := by
    rw [speed_text, List.append_assoc _ (ascii " km/")]
    rfl
  rw [hsplit, List.length_append, List.length_singleton] at hlen
  rw [hsplit, List.getElem?_append_right (by omega)]
  have hzero : 12 + width speed
      - (ascii "Speed : " ++ decimal speed ++ ascii " km/").length = 0 := by omega
  rw [hzero]
  rfl

/-- A text at least as long as every earlier one leaves nothing of them. -/
theorem Stale.over_eq_padded {m : ℕ} {top : List UInt8} (h : Stale m top) {speed : ℕ}
    (hm : m ≤ width speed) : overwrite (speed_text speed) top = padded (speed_text speed) := by
  have hbehind : top.drop (13 + width speed) = List.replicate (3 - width speed) blank := by
    have hmore : 13 + width speed = 13 + m + (width speed - m) := by omega
    rw [hmore, ← List.drop_drop, h.behind, List.drop_replicate]
    congr 1
    omega
  rw [overwrite, padded, speed_text_length, hbehind]
  congr 2
  omega

/-- A shorter text leaves the last letter of the longest one, in a cell that
should be blank. -/
theorem Stale.over_last {m : ℕ} {top : List UInt8} (h : Stale m top) {speed : ℕ}
    (hm : width speed < m) : (overwrite (speed_text speed) top)[12 + m]? = some (chr 'h') := by
  have hlen := speed_text_length speed
  rw [overwrite, List.getElem?_append_right (by omega), List.getElem?_drop, ← h.last (by omega)]
  congr 1
  omega

/-- The first row comes out right exactly when no longer number was there
before. One direction is the text that covers all, the other the letter that is
left. -/
theorem Stale.over_eq_padded_iff {m : ℕ} {top : List UInt8} (h : Stale m top) {speed : ℕ} :
    overwrite (speed_text speed) top = padded (speed_text speed) ↔ m ≤ width speed := by
  refine ⟨fun heq => ?_, h.over_eq_padded⟩
  -- were a longer number there before, its `h` would still stand where a blank should
  by_contra hlt
  have hstale := h.over_last (Nat.lt_of_not_le hlt)
  have hlen := speed_text_length speed
  rw [heq, padded, List.getElem?_append_right (by omega), List.getElem?_replicate] at hstale
  split_ifs at hstale
  exact absurd (Option.some.inj hstale) (by decide)

/-- One call on the first row: the longest text so far may be this one. -/
theorem Stale.step {m : ℕ} {top : List UInt8} (h : Stale m top) {speed : ℕ} (hs : speed < 256)
    (temperature : ℕ) :
    Stale (max m (width speed)) (wrapped temperature (overwrite (speed_text speed) top)) := by
  obtain ⟨hw1, hw3, -⟩ := width_le_three speed hs
  have hsize := over_speed_length h.length_eq hs
  have hne : overwrite (speed_text speed) top ≠ [] := by
    intro h0
    rw [h0] at hsize
    cases hsize
  have hlen := speed_text_length speed
  refine ⟨(wrapped_length temperature hne).trans hsize, ?_, fun _ => ?_⟩
  · rw [Nat.add_comm 13, ← Nat.add_assoc (max m (width speed)) 12 1, wrapped_drop temperature hne]
    -- behind the longer of the two texts, which is the new one or the one before
    by_cases hm : m ≤ width speed
    · rw [max_eq_right hm, h.over_eq_padded hm, padded, List.drop_append,
        List.drop_eq_nil_of_le (by omega), List.drop_replicate, List.nil_append]
      congr 1
      omega
    · rw [max_eq_left (by omega), overwrite, List.drop_append, List.drop_eq_nil_of_le (by omega),
        List.nil_append, List.drop_drop, ← h.behind]
      congr 1
      omega
  · rw [Nat.add_comm 12, ← Nat.add_assoc (max m (width speed)) 11 1,
      wrapped_getElem? temperature hne]
    by_cases hm : m ≤ width speed
    · rw [max_eq_right hm, overwrite, List.getElem?_append_left (by omega), ← speed_text_last speed]
      congr 1
      omega
    · rw [max_eq_left (by omega), ← h.over_last (Nat.lt_of_not_le hm)]
      congr 1
      omega

/-! ## Histories -/

/-- The digits of the longest speed. -/
def widest (rs : List Reading) : ℕ := rs.foldl (fun m r => max m (width r.speed)) 0

theorem widest_append (rs : List Reading) (r : Reading) :
    widest (rs ++ [r]) = max (widest rs) (width r.speed) := by
  simp only [widest, List.foldl_append, List.foldl_cons, List.foldl_nil]

theorem widest_le_iff (rs : List Reading) (n : ℕ) :
    widest rs ≤ n ↔ ∀ r ∈ rs, width r.speed ≤ n := by
  induction rs using List.reverseRecOn with
  | nil => simp [widest]
  | append_singleton rs r ih =>
      rw [widest_append, Nat.max_le, ih]
      simp only [List.mem_append, List.mem_singleton]
      constructor
      · rintro ⟨hrs, hr⟩ c (hc | rfl)
        · exact hrs c hc
        · exact hr
      · intro h
        exact ⟨fun c hc => h c (.inl hc), h r (.inr rfl)⟩

theorem display_append (cells : CArray (2 * 16)) (rs : List Reading) (r : Reading) :
    display cells (rs ++ [r]) = lcdScreen (display cells rs) r := by
  simp only [display, List.foldl_append, List.foldl_cons, List.foldl_nil]

/-- The first texts, before any reading: shorter than all that follow. -/
theorem initLcd_shows (cells : CArray (2 * 16)) :
    Shows (initLcd cells) (overwrite (ascii "Speed : ") (List.replicate 16 blank))
      (overwrite (ascii "F:---- T:") (List.replicate 16 blank)) := by
  have hclear : Shows (lcdClear (lcdInit cells)) (List.replicate 16 blank)
      (List.replicate 16 blank) := ⟨⟨0, lcdInit_at cells⟩, rfl, rfl⟩
  have htop := hclear.puts_top (ascii "Speed : ") (by decide) (by decide : Plain "Speed : ")
    (by decide)
  rw [initLcd, initLcd_calls, List.foldl_cons, draw_clear, two_texts]
  exact htop.puts_bottom (ascii "F:---- T:") (by decide) (by decide : Plain "F:---- T:") (by decide)

theorem initLcd_stale :
    Stale (widest []) (overwrite (ascii "Speed : ") (List.replicate 16 blank)) :=
  ⟨by decide, by decide, by decide⟩

/-- **The display after any history.** Its second row ends in a blank, and its
first one holds what the longest speed so far has left. By induction on the
history, one `lcdScreen_shows` and one `Stale.step` at a time. -/
theorem display_stale (cells : CArray (2 * 16)) (rs : List Reading) (hrs : ∀ r ∈ rs, r.InRange) :
    ∃ top bottom, Shows (display cells rs) top bottom ∧ bottom.drop 15 = [blank]
      ∧ Stale (widest rs) top := by
  induction rs using List.reverseRecOn with
  | nil =>
      rw [display, List.foldl_nil]
      exact ⟨_, _, initLcd_shows cells, by decide, initLcd_stale⟩
  | append_singleton rs r ih =>
      -- by induction on the history from its end: `Stale` carries the longest speed so far
      obtain ⟨top, bottom, hshows, hlast, hstale⟩ :=
        ih fun c hc => hrs c (List.mem_append_left _ hc)
      have hr := hrs r (List.mem_append_right _ (List.mem_singleton.mpr rfl))
      rw [display_append, widest_append]
      exact ⟨_, _, lcdScreen_shows hshows hlast r hr, padded_level_last r.fuel hr.2.1,
        hstale.step hr.1 r.temperature⟩

/-- A three-digit temperature wipes the `S`, and no speed text begins with
anything else. -/
theorem wrapped_eq_padded_iff {temperature speed : ℕ} {row : List UInt8} :
    wrapped temperature row = padded (speed_text speed)
      ↔ temperature < 100 ∧ row = padded (speed_text speed) := by
  unfold wrapped
  split_ifs with hlt
  · exact ⟨fun h => ⟨hlt, h⟩, fun h => h.2⟩
  · refine ⟨fun h => ?_, fun h => absurd h.1 hlt⟩
    -- the first cell is blank, and the row should begin with `S`
    have hhead := congrArg List.head? h
    exact absurd (Option.some.inj hhead) (by decide)

theorem display_rows_iff (cells : CArray (2 * 16)) (rs : List Reading) (r : Reading)
    (hrs : ∀ c ∈ rs ++ [r], c.InRange) :
    (display cells (rs ++ [r])).row 0 = padded (speed_text r.speed)
        ∧ (display cells (rs ++ [r])).row 1 = padded (level_text r.fuel r.temperature)
      ↔ r.temperature < 100 ∧ ∀ c ∈ rs, width c.speed ≤ width r.speed := by
  obtain ⟨top, bottom, hshows, hlast, hstale⟩ :=
    display_stale cells rs fun c hc => hrs c (List.mem_append_left _ hc)
  have hr := hrs r (List.mem_append_right _ (List.mem_singleton.mpr rfl))
  have hafter := lcdScreen_shows hshows hlast r hr
  rw [display_append, hafter.row_zero, hafter.row_one, wrapped_eq_padded_iff,
    hstale.over_eq_padded_iff, widest_le_iff]
  exact ⟨fun h => h.1, fun h => ⟨h, rfl⟩⟩

/-- **What the LCD shows, and when it is the last reading.** After any non-empty
history both rows are those of the last reading, padded with blanks, exactly
when its temperature has at most two digits and no earlier speed had more digits
than the last one; and the gauge of more fuel has at least as many full cells,
except that an empty tank looks like a full one. -/
theorem display_shows_iff (cells : CArray (2 * 16)) (rs : List Reading) (r : Reading)
    (hrs : ∀ c ∈ rs ++ [r], c.InRange) (f f' : ℕ) (hle : f ≤ f') :
    ((display cells (rs ++ [r])).row 0 = padded (speed_text r.speed)
        ∧ (display cells (rs ++ [r])).row 1 = padded (level_text r.fuel r.temperature)
      ↔ r.temperature < 100 ∧ ∀ c ∈ rs, width c.speed ≤ width r.speed)
    ∧ (full f ≤ full f' ↔ (f = 0 → f' = 0 ∨ 7 ≤ f')) :=
  ⟨display_rows_iff cells rs r hrs, full_le_iff hle⟩

/-- A history the display follows. -/
theorem display_shows_iff_rising :
    (display (CArray.fill (2 * 16) blank) [⟨9, 3, 20⟩, ⟨50, 2, 20⟩]).row 0 = padded (speed_text 50)
      ∧ full 1 ≤ full 7 := by
  have h := display_shows_iff (CArray.fill (2 * 16) blank) [⟨9, 3, 20⟩] ⟨50, 2, 20⟩
    (by decide) 1 7 (by decide)
  exact ⟨(h.1.mpr ⟨by decide, by decide⟩).1, h.2.mpr (by decide)⟩

/-- Braking from 100 to 5 leaves `Speed : 5 km/h/h`; and a tank with nothing in
it shows more than one with a little. -/
theorem speed_leaves_rest :
    (display (CArray.fill (2 * 16) blank) [⟨100, 3, 20⟩, ⟨5, 3, 20⟩]).row 0
        = ascii "Speed : 5 km/h/h"
      ∧ ¬ ((display (CArray.fill (2 * 16) blank) [⟨100, 3, 20⟩, ⟨5, 3, 20⟩]).row 0
        = padded (speed_text 5))
      ∧ full 1 < full 0 := by
  decide +kernel

/-! ## In a run -/

/-- Every call of `lcdScreen` in a run is within the ranges, for its arguments
come out of the buffer by `reading`. -/
theorem shown_inRange (term : List UInt8) (b r d : CArray 512) (stdin : List Result)
    (scanfs : List (Option Int32)) (socket : List Result) (polls : List Poll) :
    ∀ c ∈ shown (main_loop term (Main.start b r d stdin scanfs socket) polls).session.trace,
      c.InRange := by
  refine main_loop_invariant term (I := fun s => ∀ c ∈ shown s.session.trace, c.InRange)
    ?_ ?_ ?_ (by simp [Main.start, Session.start, shown]) polls
  · intro s s' hstep h
    obtain ⟨acts, htr, hof⟩ := hstep.frame.session.trace
    rw [htr, shown_append, shown_ofStdin hof, List.append_nil]
    exact h
  · intro s s' x y hframe h
    obtain ⟨acts, htr, hof, _⟩ := hframe.trace
    rw [htr, shown_append, shown_ofRecv hof, List.append_nil]
    exact h
  -- only a message adds to what is shown, and its values are cut from the buffer
  · intro s hs h
    by_cases hid : id_matches s.dataBuffer.bytes
    · obtain ⟨acts, htr, hno⟩ := show_message_trace term s hs hid
      rw [htr, shown_append, ← List.singleton_append, shown_append, hno, List.append_nil]
      intro c hc
      rcases List.mem_append.mp hc with hc | hc
      · exact h c hc
      · rw [List.mem_singleton.mp hc]
        exact reading_inRange _
    · rw [show_message, if_neg hid]
      exact h

/-- **The LCD in a run.** Whatever the server sends and the user types, once
something is shown the display holds the last reading under the same
condition. -/
theorem main_loop_display_iff (term : List UInt8) (b r d : CArray 512) (stdin : List Result)
    (scanfs : List (Option Int32)) (socket : List Result) (polls : List Poll)
    (cells : CArray (2 * 16)) {vs : List Reading} {v : Reading}
    (hshown : shown (main_loop term (Main.start b r d stdin scanfs socket) polls).session.trace
      = vs ++ [v]) :
    (display cells (shown (main_loop term (Main.start b r d stdin scanfs socket)
          polls).session.trace)).row 0 = padded (speed_text v.speed)
        ∧ (display cells (shown (main_loop term (Main.start b r d stdin scanfs socket)
          polls).session.trace)).row 1 = padded (level_text v.fuel v.temperature)
      ↔ v.temperature < 100 ∧ ∀ c ∈ vs, width c.speed ≤ width v.speed := by
  have hrange := shown_inRange term b r d stdin scanfs socket polls
  rw [hshown] at hrange ⊢
  exact display_rows_iff cells vs v hrange

end AutoMag.Client
