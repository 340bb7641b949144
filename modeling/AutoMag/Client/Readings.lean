/-
`Client/Readings.lean` -- where the values on the display come from.

A message is 24 bytes on the wire; the program glues it from the eight bytes at the
marker and the first eight of each of the next two recv results. `HoldsAt` says what
a reading should mean: 24 consecutive bytes of the stream received so far. The glue
is such a stretch when the marker stands eight bytes before the end of its result,
the next result is eight bytes long, and the one after it brings eight at least; in
a run where that is so of every message shown, every reading is sound.
-/
import Mathlib.Data.List.GetD
import AutoMag.Client.Steps

set_option autoImplicit false

namespace AutoMag.Client

open AutoMag.CMemory AutoMag.Libtelnet AutoMag.Machine

/-! ## A message in a stream -/

/-- The stream holds a message with these values at `p`. -/
structure HoldsAt (stream : List UInt8) (p : ℕ) (r : Reading) : Prop where
  whole : p + 24 ≤ stream.length
  marker : stream.getD p 0 = chr 'R' ∧ stream.getD (p + 1) 0 = chr 'X'
    ∧ stream.getD (p + 2) 0 = chr '2'
  id : stream.getD (p + 6) 0 = chr '1' ∧ stream.getD (p + 7) 0 = chr '0'
  speed : r.speed = 16 * htoi (stream.getD (p + 9) 0) + htoi (stream.getD (p + 10) 0)
  fuel : r.fuel = htoi (stream.getD (p + 18) 0)
  temperature : r.temperature = 16 * htoi (stream.getD (p + 21) 0) + htoi (stream.getD (p + 22) 0)

theorem getD_take {l : List UInt8} {n i : ℕ} (h : i < n) : (l.take n).getD i 0 = l.getD i 0 := by
  simp only [List.getD_eq_getElem?_getD, List.getElem?_take_of_lt h]

theorem getD_drop (l : List UInt8) (n i : ℕ) : (l.drop n).getD i 0 = l.getD (n + i) 0 := by
  simp only [List.getD_eq_getElem?_getD, List.getElem?_drop]

/-- Twenty-four bytes that begin with the marker and have the ID are a message
where they stand. -/
theorem HoldsAt.of_drop {stream m : List UInt8} {p : ℕ} (hm : (stream.drop p).take 24 = m)
    (hlen : m.length = 24) (hmark : checkMsg <+: m) (hid : id_matches m) :
    HoldsAt stream p (reading m) := by
  -- every byte a value is taken from is a byte of the stream, `p` further on
  have hget : ∀ i < 24, m.getD i 0 = stream.getD (p + i) 0 := by
    intro i hi
    rw [← hm, getD_take hi, getD_drop]
  have hwhole : p + 24 ≤ stream.length := by
    have hl := congrArg List.length hm
    rw [List.length_take, List.length_drop, hlen] at hl
    omega
  obtain ⟨rest, rfl⟩ := hmark
  refine ⟨hwhole, ⟨?_, ?_, ?_⟩, ⟨?_, ?_⟩, ?_, ?_, ?_⟩
  · exact (hget 0 (by omega)).symm
  · exact (hget 1 (by omega)).symm
  · exact (hget 2 (by omega)).symm
  · rw [← hget 6 (by omega)]
    exact hid.1
  · rw [← hget 7 (by omega)]
    exact hid.2
  · rw [← hget 9 (by omega), ← hget 10 (by omega)]
    simp only [reading, Nat.shiftLeft_eq]
    omega
  · rw [← hget 18 (by omega), reading]
  · rw [← hget 21 (by omega), ← hget 22 (by omega)]
    simp only [reading, Nat.shiftLeft_eq]
    omega

/-- Every reading shown is in the stream received by then. -/
def Sound (tr : List Act) : Prop :=
  ∀ pre r post, tr = pre ++ .lcdScreen r :: post → ∃ p, HoldsAt (received pre) p r

theorem mem_of_shown {acts : List Act} {r : Reading} (h : r ∈ shown acts) :
    .lcdScreen r ∈ acts := by
  obtain ⟨a, ha, hr⟩ := List.mem_flatMap.mp h
  cases a with
  | lcdScreen r' => rwa [List.mem_singleton.mp hr]
  | _ => cases hr

/-- More acts that show nothing. The stream may be longer afterwards, and what
was in it still is. -/
theorem Sound.append {tr acts : List Act} (h : Sound tr) (hno : shown acts = []) :
    Sound (tr ++ acts) := by
  have hnot : ∀ r, .lcdScreen r ∉ acts := by
    intro r hr
    have hmem : r ∈ shown acts := List.mem_flatMap.mpr ⟨_, hr, List.mem_singleton_self r⟩
    rw [hno] at hmem
    cases hmem
  intro pre r post heq
  -- the call stands in the old part or in the new one, and there it cannot
  rcases List.append_eq_append_iff.mp heq with ⟨as, rfl, hacts⟩ | ⟨as, rfl, hacts⟩
  · exact absurd (by rw [hacts]; simp) (hnot r)
  · cases as with
    | nil => exact absurd (by rw [← List.nil_append acts, ← hacts]; simp) (hnot r)
    | cons a as =>
        cases hacts
        exact h pre r as rfl

/-- A message that is in the stream, and more acts that show nothing. -/
theorem Sound.show {tr acts : List Act} {r : Reading} (h : Sound tr) {p : ℕ}
    (hr : HoldsAt (received tr) p r) (hno : shown acts = []) :
    Sound (tr ++ .lcdScreen r :: acts) := by
  have hone : Sound (tr ++ [.lcdScreen r]) := by
    intro pre r' post heq
    rcases List.append_eq_append_iff.mp heq with ⟨as, rfl, hacts⟩ | ⟨as, rfl, hacts⟩
    · cases as with
      | nil =>
          cases hacts
          rw [List.append_nil]
          exact ⟨p, hr⟩
      | cons a as =>
          have hlen := congrArg List.length hacts
          simp at hlen
    · cases as with
      | nil =>
          cases hacts
          rw [List.append_nil] at hr
          exact ⟨p, hr⟩
      | cons a as =>
          cases hacts
          exact h pre r' as rfl
  -- the new call is the last of the shortened trace; what follows it shows nothing
  have h' := hone.append hno
  rwa [List.append_assoc] at h'

/-! ## When the glue is a stretch of the stream -/

/-- In this pass, if a message with the ID is put together, its marker stands
eight bytes before the end of the first result, the second has eight bytes and
the third eight or more. -/
def InEights (s : Main) : Poll → Prop
  | .ready _ true _ past => ∀ c d e q ret, s.socket = .data c :: .data d :: .data e :: q →
      strstr checkMsg ((s.recieveBuffer.write 0 c.bytes).bytes ++ past) = some ret →
      ((s.recieveBuffer.write 0 c.bytes).bytes ++ past).getD (ret + 6) 0 = chr '1' →
      ((s.recieveBuffer.write 0 c.bytes).bytes ++ past).getD (ret + 7) 0 = chr '0' →
      ret + 8 = c.bytes.length ∧ d.bytes.length = 8 ∧ 8 ≤ e.bytes.length
  | _ => True

theorem first_part_getD (mem : List UInt8) (ret : ℕ) {i : ℕ} (hi : i < 8) :
    (first_part mem ret).getD i 0 = mem.getD (ret + i) 0 := by
  simp [first_part, List.getD_eq_getElem?_getD, hi]

theorem glued_getD (s : Main) (past : List UInt8) (c d e : Chunk) (ret : ℕ) {i : ℕ} (hi : i < 8) :
    (s.glued past c d e ret).getD i 0
      = ((s.recieveBuffer.write 0 c.bytes).bytes ++ past).getD (ret + i) 0 := by
  have hlen := first_part_length ((s.recieveBuffer.write 0 c.bytes).bytes ++ past) ret
  rw [← first_part_getD _ _ hi, Main.glued, List.append_assoc, List.getD_append _ _ _ _ (by omega)]

theorem first_part_eq {mem : List UInt8} {ret : ℕ} (h : ret + 8 ≤ mem.length) :
    first_part mem ret = (mem.drop ret).take 8 := by
  refine List.ext_getElem (by simp [first_part]; omega) ?_
  intro i h1 h2
  have hi : i < 8 := by simpa [first_part] using h1
  have hlt : ret + i < mem.length := by omega
  simp [first_part, List.getD_eq_getElem?_getD, List.getElem?_eq_getElem hlt]

/-- A write at the front, read back from the front, no further than it
reaches. -/
theorem take_write {n : ℕ} (a : CArray n) {bs : List UInt8} {k : ℕ} (hk : k ≤ bs.length)
    (hn : bs.length ≤ n) : (a.write 0 bs).bytes.take k = bs.take k := by
  rw [a.write_zero_bytes bs hn, List.take_append_of_le_length hk]

/-- The glue, when the parts have the right lengths: the end of the first
result, the second, and the front of the third. -/
theorem glued_eq (s : Main) (past : List UInt8) (c d e : Chunk) {ret : ℕ}
    (hc : ret + 8 = c.bytes.length) (hd : d.bytes.length = 8) (he : 8 ≤ e.bytes.length) :
    s.glued past c d e ret = c.bytes.drop ret ++ d.bytes ++ e.bytes.take 8 := by
  have hmem : (s.recieveBuffer.write 0 c.bytes).bytes ++ past
      = c.bytes ++ (s.recieveBuffer.bytes.drop c.bytes.length ++ past) := by
    rw [CArray.write_zero_bytes _ _ c.le, List.append_assoc]
  -- with eight bytes left in its result, the first part is nothing but these
  have hfirst : first_part ((s.recieveBuffer.write 0 c.bytes).bytes ++ past) ret
      = c.bytes.drop ret := by
    rw [first_part_eq (by rw [hmem, List.length_append]; omega), hmem,
      List.drop_append_of_le_length (by omega), List.take_append_of_le_length (by simp; omega),
      List.take_of_length_le (by simp; omega)]
  unfold Main.glued
  rw [hfirst, take_write _ (by omega) d.le, take_write _ he e.le, List.take_of_length_le (by omega)]

/-- A hit of the search is where the glue begins, and it is in the bytes just
received: with eight bytes from it to their end there is no room for stale
ones. -/
theorem glued_marker {s : Main} {past : List UInt8} {c : Chunk} {ret : ℕ}
    (hret : strstr checkMsg ((s.recieveBuffer.write 0 c.bytes).bytes ++ past) = some ret)
    (hc : ret + 8 = c.bytes.length) : checkMsg <+: c.bytes.drop ret := by
  have hpre := strstr_some hret
  rw [CArray.write_zero_bytes _ _ c.le, List.append_assoc,
    List.drop_append_of_le_length (by omega)] at hpre
  apply List.prefix_of_prefix_length_le hpre (List.prefix_append ..)
  rw [List.length_drop]
  change 3 ≤ _
  omega

/-- The stream after three results in the right lengths: the glue is a stretch
of it, for nothing was received in between. -/
theorem HoldsAt.glued {s : Main} {past : List UInt8} {c d e : Chunk} {ret : ℕ}
    (stream : List UInt8)
    (hret : strstr checkMsg ((s.recieveBuffer.write 0 c.bytes).bytes ++ past) = some ret)
    (hc : ret + 8 = c.bytes.length) (hd : d.bytes.length = 8) (he : 8 ≤ e.bytes.length)
    (hid : id_matches (s.glued past c d e ret)) :
    HoldsAt (stream ++ (c.bytes ++ (d.bytes ++ e.bytes))) (stream.length + ret)
      (reading (s.glued past c d e ret)) := by
  refine .of_drop ?_ (glued_length s past c d e ret) ?_ hid
  · rw [glued_eq s past c d e hc hd he, List.drop_append,
      List.drop_eq_nil_of_le (by omega : stream.length ≤ stream.length + ret), List.nil_append,
      Nat.add_sub_cancel_left, List.drop_append_of_le_length (by omega), ← List.append_assoc,
      List.take_append, List.take_of_length_le (by simp; omega)]
    simp only [List.length_append, List.length_drop]
    congr 2
    omega
  · rw [glued_eq s past c d e hc hd he, List.append_assoc]
    exact (glued_marker hret hc).trans (List.prefix_append ..)

/-- Showing a message that is in the stream keeps the readings sound. -/
theorem Sound.show_message {term : List UInt8} {s : Main} (h : Sound s.session.trace)
    (hs : s.session.status = .running) (hr : id_matches s.dataBuffer.bytes →
      ∃ p, HoldsAt (received s.session.trace) p (reading s.dataBuffer.bytes)) :
    Sound (Client.show_message term s).session.trace := by
  by_cases hid : id_matches s.dataBuffer.bytes
  · obtain ⟨p, hp⟩ := hr hid
    obtain ⟨acts, htr, hno⟩ := show_message_trace term s hs hid
    rw [htr]
    exact h.show hp hno
  · rw [Client.show_message, if_neg hid]
    exact h

/-- **A pass in eights keeps the readings sound.** The outcomes of the socket
branch are gone through; only the last of them shows anything. -/
theorem iteration_sound (term : List UInt8) (s : Main) (p : Poll) (h : Sound s.session.trace)
    (hp : InEights s p) : Sound (iteration term s p).session.trace := by
  obtain ⟨s₁, h₁, hs' | ⟨stdin, pastBuffer, past, rfl, hrun, hstep⟩⟩ := iteration_cases term s p
  · obtain ⟨acts, htr, hof⟩ := h₁.frame.session.trace
    rw [hs', htr]
    exact h.append (shown_ofStdin hof)
  · have hframe := h₁.frame
    obtain ⟨acts₁, htr₁, hof₁⟩ := hframe.session.trace
    have hsound₁ : Sound s₁.session.trace := by
      rw [htr₁]
      exact h.append (shown_ofStdin hof₁)
    obtain ⟨s₂, x, y, hrecv, _, hs'⟩ := hstep.split hrun
    obtain ⟨acts₂, htr₂, hof₂, hxy, _⟩ := hrecv.trace
    have hsound₂ : Sound s₂.session.trace := by
      rw [htr₂]
      exact hsound₁.append (shown_ofRecv hof₂)
    rcases hs' with hs' | ⟨hrun₂, ⟨c, d, e, q, ret, hq, hret, hdata, rfl, rfl⟩, hs'⟩
    · rw [hs']
      exact hsound₂
    · rw [hs']
      refine hsound₂.show_message hrun₂ fun hid => ⟨(received s₁.session.trace).length + ret, ?_⟩
      -- what is looked at is the 24 bytes just put together
      rw [← id_matches_take, hdata] at hid
      rw [← reading_take, hdata, htr₂, received_append, hxy]
      have hid₆ := hid.1
      have hid₇ := hid.2
      rw [glued_getD s₁ past c d e ret (by omega)] at hid₆ hid₇
      rw [hframe.recieveBuffer] at hret hid₆ hid₇
      -- `InEights` speaks of the state before the stdin branch, which touches none of this
      obtain ⟨hc, hd, he⟩ := hp c d e q ret (hframe.socket.symm.trans hq) hret hid₆ hid₇
      refine HoldsAt.glued _ ?_ hc hd he hid
      rw [hframe.recieveBuffer]
      exact hret

/-- **Readings come from the stream** in a run in eights: in every state it
reaches, every `lcdScreen` call was made with the values of 24 consecutive bytes
received by then. -/
theorem readings_sound (term : List UInt8) (b r d : CArray 512) (stdin : List Result)
    (scanfs : List (Option Int32)) (socket : List Result) (polls more : List Poll)
    (h : Along (iteration term) InEights (Main.start b r d stdin scanfs socket) (polls ++ more)) :
    ∀ pre v post,
      (main_loop term (Main.start b r d stdin scanfs socket) polls).session.trace
          = pre ++ .lcdScreen v :: post →
        ∃ p, HoldsAt (received pre) p v := by
  have hstart : Sound (Main.start b r d stdin scanfs socket).session.trace := by
    intro pre v post heq
    exact absurd heq (by simp [Main.start, Session.start])
  exact run_invariant_along (iteration term) (I := fun s => Sound s.session.trace)
    (iteration_sound term) hstart polls h.of_append

/-- A first part, and then one byte twice. -/
def short_parts : List Result :=
  [.data opening, .data ⟨ascii "x", by decide, by decide⟩, .data ⟨ascii "y", by decide, by decide⟩]

/-- Ten bytes received, and a reading: its second and third part brought one
byte each, and the rest of them is what was left in `recieveBuffer`. -/
theorem reading_from_stale :
    ∃ pre v post,
      (main_loop [] (Main.start (.fill 512 0) (.fill 512 0) (.fill 512 0) [] [] short_parts)
        [.ready false true [] []]).session.trace = pre ++ .lcdScreen v :: post
      ∧ ¬ ∃ p, HoldsAt (received pre) p v := by
  have hshown : shown (main_loop []
      (Main.start (.fill 512 0) (.fill 512 0) (.fill 512 0) [] [] short_parts)
      [.ready false true [] []]).session.trace = [⟨2, 2, 193⟩] := by decide +kernel
  have hten : (received (main_loop []
      (Main.start (.fill 512 0) (.fill 512 0) (.fill 512 0) [] [] short_parts)
      [.ready false true [] []]).session.trace).length = 10 := by decide +kernel
  have hmem : .lcdScreen ⟨2, 2, 193⟩ ∈ (main_loop []
      (Main.start (.fill 512 0) (.fill 512 0) (.fill 512 0) [] [] short_parts)
      [.ready false true [] []]).session.trace :=
    mem_of_shown (by rw [hshown]; exact List.mem_singleton_self _)
  obtain ⟨pre, post, htr⟩ := List.append_of_mem hmem
  refine ⟨pre, ⟨2, 2, 193⟩, post, htr, ?_⟩
  rintro ⟨p, hp⟩
  -- a message has 24 bytes, and ten were received
  have hwhole := hp.whole
  rw [htr, received_append, List.length_append] at hten
  omega

/-- Three parts of eight bytes are in eights, and their reading is in the
stream. -/
theorem readings_sound_standing :
    Along (iteration []) InEights
      (Main.start (.fill 512 0) (.fill 512 0) (.fill 512 0) [] [] standing)
      ([.ready false true [] []] ++ [])
    ∧ ∀ pre v post,
      (main_loop [] (Main.start (.fill 512 0) (.fill 512 0) (.fill 512 0) [] [] standing)
        [.ready false true [] []]).session.trace = pre ++ .lcdScreen v :: post →
      ∃ p, HoldsAt (received pre) p v := by
  have halong : Along (iteration []) InEights
      (Main.start (.fill 512 0) (.fill 512 0) (.fill 512 0) [] [] standing)
      ([.ready false true [] []] ++ []) := by
    refine ⟨fun c d e q ret hq hret _ _ => ?_, trivial⟩
    cases hq
    have hzero : strstr checkMsg (((CArray.fill 512 0).write 0 (ascii "RX2abc10")).bytes ++ [])
        = some 0 := by decide +kernel
    cases hzero.symm.trans hret
    decide
  exact ⟨halong, readings_sound [] _ _ _ _ _ _ _ [] halong⟩

end AutoMag.Client
