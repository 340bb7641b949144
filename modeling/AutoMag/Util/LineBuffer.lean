/-
`Util/LineBuffer.lean` -- `linebuffer_push` of `telnet-chatd.c`.

The server collects what a user types into a fixed buffer, byte by byte, and calls back with
every line. The buffer here is the bytes before `linepos`, which are all that is ever read of
it: the callback is handed the buffer just after a NUL was put behind them.
-/
import AutoMag.Libtelnet.Send
import Mathlib.Data.List.TakeWhile

set_option autoImplicit false

namespace AutoMag.Chatd

open AutoMag.Machine AutoMag.Libtelnet

/-! ## 1. The buffer -/

/-- `char linebuf[size]` and `linepos`. -/
@[ext] structure LineBuffer (size : ℕ) where
  bytes : List UInt8
  room : bytes.length ≤ size

/-- `linepos = 0`. -/
def LineBuffer.clear (size : ℕ) : LineBuffer size := ⟨[], Nat.zero_le _⟩

@[simp] theorem LineBuffer.clear_bytes (size : ℕ) : (LineBuffer.clear size).bytes = [] := rfl

/-- The C string at the start of these bytes. -/
def cstring (bytes : List UInt8) : CString where
  bytes := bytes.takeWhile (· ≠ 0)
  no_nul := fun h => by simpa using List.mem_takeWhile_imp h

/-- The arguments of the callback. -/
structure Line where
  line : CString
  overflow : ℕ

/-- `linebuffer_push`: the buffer, and the call of `cb` if there is one. -/
def linebuffer_push {size : ℕ} (b : LineBuffer size) (ch : UInt8) : LineBuffer size × List Line :=
  -- CRLF: the NUL replaces the \r in the buffer
  if ch = 10 ∧ b.bytes.getLast? = some 13 then (.clear size, [⟨cstring b.bytes.dropLast, 0⟩])
  -- CRNUL: the CR is already in the buffer
  else if ch = 0 ∧ b.bytes.getLast? = some 13 then (b, [])
  -- anything else, if we have room
  else if h : b.bytes.length ≠ size then
    (⟨b.bytes ++ [ch], by
      have := b.room
      rw [List.length_append, List.length_singleton]
      omega⟩, [])
  -- buffer overflow: eats a byte
  else (.clear size, [⟨cstring (b.bytes.take (size - 1)), size - 1⟩])

/-! ## 2. Lines arrive as they were typed -/

/-- Bytes without a NUL are a C string as they stand. -/
theorem cstring_of_no_nul {bytes : List UInt8} (h : 0 ∉ bytes) : (cstring bytes).bytes = bytes := by
  rw [cstring, List.takeWhile_eq_self_iff]
  intro b hb
  simpa using fun h0 : b = 0 => h (h0 ▸ hb)

/-- A C string is the one at its start. -/
@[simp] theorem cstring_bytes (line : CString) : cstring line.bytes = line := by
  cases line with
  | mk bytes no_nul =>
      have hbytes := cstring_of_no_nul no_nul
      simp only [cstring] at hbytes ⊢
      simp only [hbytes]

/-- A byte that neither ends a line nor follows a CR as a NUL, with room left:
it is stored, and no line is called back. -/
theorem linebuffer_push_room {size : ℕ} (b : LineBuffer size) {ch : UInt8}
    (hlf : ch ≠ 10) (hnul : ch ≠ 0) (hroom : b.bytes.length < size) :
    (linebuffer_push b ch).1.bytes = b.bytes ++ [ch] ∧ (linebuffer_push b ch).2 = [] := by
  simp [linebuffer_push, hlf, hnul, Nat.ne_of_lt hroom]

/-- The network form of one byte of a line: it is in the buffer afterwards. For
a CR that form is CR NUL, and the NUL is what makes the buffer keep the CR as a
byte of the line. -/
theorem feed_push_byte {size : ℕ} (b : LineBuffer size) {ch : UInt8} (hlf : ch ≠ 10) (hnul : ch ≠ 0)
    (hroom : b.bytes.length < size) :
    (feed linebuffer_push b (network [ch])).1.bytes = b.bytes ++ [ch]
      ∧ (feed linebuffer_push b (network [ch])).2 = [] := by
  obtain ⟨hbytes, hout⟩ := linebuffer_push_room b hlf hnul hroom
  by_cases hcr : ch = 13
  · -- the NUL behind a CR finds it at the end of the buffer
    subst hcr
    have hlast : (linebuffer_push b 13).1.bytes.getLast? = some 13 := by rw [hbytes]; simp
    have hskip : linebuffer_push (linebuffer_push b 13).1 0 = ((linebuffer_push b 13).1, []) := by
      simp [linebuffer_push.eq_1 (linebuffer_push b 13).1, hlast]
    have hnet : network [13] = [13, 0] := rfl
    rw [hnet, feed_cons, feed_cons, hskip]
    exact ⟨hbytes, by simp [hout]⟩
  · have hnet : network [ch] = [ch] := by simp [network, hcr, hlf]
    rw [hnet, feed_cons]
    exact ⟨hbytes, by simp [hout]⟩

theorem network_append (as bs : List UInt8) : network (as ++ bs) = network as ++ network bs :=
  List.flatMap_append ..

/-- The bytes of a line. The induction is on the bytes, for any beginning
already in the buffer, with room for both. -/
theorem feed_push_line {size : ℕ} (line : List UInt8) :
    ∀ {b : LineBuffer size}, 10 ∉ line → 0 ∉ line →
    (b.bytes ++ line).length ≤ size →
    (feed linebuffer_push b (network line)).1.bytes = b.bytes ++ line
      ∧ (feed linebuffer_push b (network line)).2 = [] := by
  induction line with
  | nil => exact fun _ _ _ => ⟨(List.append_nil _).symm, rfl⟩
  | cons ch line ih =>
      intro b hlf hnul hroom
      rw [List.length_append, List.length_cons] at hroom
      obtain ⟨hbytes, hout⟩ := feed_push_byte b (fun h => hlf (h ▸ List.mem_cons_self ..))
        (fun h => hnul (h ▸ List.mem_cons_self ..)) (by omega)
      obtain ⟨hbytes', hout'⟩ := ih (b := (feed linebuffer_push b (network [ch])).1)
        (fun h => hlf (List.mem_cons_of_mem _ h)) (fun h => hnul (List.mem_cons_of_mem _ h))
        (by rw [hbytes]; simp only [List.length_append, List.length_singleton]; omega)
      have hnet : network (ch :: line) = network [ch] ++ network line := network_append [ch] line
      rw [hnet, feed_append]
      refine ⟨?_, ?_⟩
      · simp only
        rw [hbytes', hbytes, List.append_assoc]
        rfl
      · simp only
        rw [hout, hout']
        rfl

/-- A line with its end: it is called back as it is, and the buffer is empty.
The CR before the LF is in the buffer for a moment, which is why the line has to
be shorter than it by one. -/
theorem feed_push_whole {size : ℕ} {line : CString} (hlf : 10 ∉ line.bytes)
    (hroom : line.bytes.length < size) :
    feed linebuffer_push (.clear size) (network (line.bytes ++ [10]))
      = (.clear size, [⟨line, 0⟩]) := by
  obtain ⟨hbytes, hout⟩ := feed_push_line (b := LineBuffer.clear size) line.bytes hlf line.no_nul
    (by simpa using Nat.le_of_lt hroom)
  rw [LineBuffer.clear_bytes, List.nil_append] at hbytes
  have hcr : (13 : UInt8) ≠ 10 ∧ (13 : UInt8) ≠ 0 := by decide
  obtain ⟨hbytes', hout'⟩ :=
    linebuffer_push_room (feed linebuffer_push (.clear size) (network line.bytes)).1
    hcr.1 hcr.2 (by rw [hbytes]; exact hroom)
  rw [hbytes] at hbytes'
  -- the LF finds the CR at the end of the buffer
  have hend : ∀ b : LineBuffer size, b.bytes = line.bytes ++ [13] →
      linebuffer_push b 10 = (.clear size, [⟨line, 0⟩]) := by
    intro b hb
    simp [linebuffer_push, hb]
  have hnet : network [10] = [13, 10] := rfl
  rw [network_append, hnet, feed_append, feed_cons, feed_cons, hend _ hbytes', hout, hout']
  rfl

/-- **Lines arrive as they were typed**, whatever they are made of, as long as
each fits the buffer with its CR. -/
theorem feed_push_lines {size : ℕ} (lines : List CString)
    (h : ∀ line ∈ lines, 10 ∉ line.bytes ∧ line.bytes.length < size) :
    feed linebuffer_push (.clear size) (network (lines.flatMap fun line => line.bytes ++ [10]))
      = (.clear size, lines.map fun line => ⟨line, 0⟩) := by
  induction lines with
  | nil => rfl
  | cons line lines ih =>
      obtain ⟨hlf, hroom⟩ := h line (List.mem_cons_self ..)
      rw [List.flatMap_cons, network_append, feed_append, feed_push_whole hlf hroom,
        ih fun l hl => h l (List.mem_cons_of_mem _ hl)]
      rfl

end AutoMag.Chatd
