/-
`Client/Leds.lean` -- the LED commands of the message handler.

The program keeps its own idea of the LEDs in two flags and sends a pair of
commands only when the side of a speed changes. In every run the commands of the
message handler are a function of the speeds shown (`led_commands`), and the flags
are the side of the last one. What the LEDs themselves then show is another matter,
and `Client/Panel.lean`'s.
-/
import AutoMag.Client.Menu

set_option autoImplicit false

namespace AutoMag.Client

open AutoMag.CMemory AutoMag.Libtelnet AutoMag.Machine

/-! ## The side of a speed -/

/-- LED1 is the green one, LED2 the red one. -/
inductive Led where
  | one | two
deriving DecidableEq, Repr

/-- The LED that stands for a speed. -/
def side (speed : ℕ) : Led := if speed ≤ 60 then .one else .two

/-- `greenLedState` and `redLedState` for the side of the last message. -/
def led_flags : Option Led → ℕ × ℕ
  | none => (0, 0)
  | some .one => (1, 0)
  | some .two => (0, 1)

/-- The two commands for a side. -/
def pair_texts : Led → List String
  | .one => ["\r\n GPLED LED1 SET\n", "GPLED LED2 CLEAR\n"]
  | .two => ["GPLED LED2 SET\n", "GPLED LED1 CLEAR\n"]

/-- The side of the last message, with `last` before the first one. -/
def last_side (last : Option Led) (rs : List Reading) : Option Led :=
  rs.foldl (fun _ r => some (side r.speed)) last

/-- The commands for a list of messages: a pair where the side changes. -/
def led_commands : Option Led → List Reading → List String
  | _, [] => []
  | last, r :: rs =>
      (if last = some (side r.speed) then [] else pair_texts (side r.speed))
        ++ led_commands (some (side r.speed)) rs

theorem last_side_append (last : Option Led) (rs : List Reading) (r : Reading) :
    last_side last (rs ++ [r]) = some (side r.speed) := by
  simp only [last_side, List.foldl_append, List.foldl_cons, List.foldl_nil]

/-- One message more: a pair of commands if its side is another than that of the
message before, and nothing otherwise. -/
theorem led_commands_append (rs : List Reading) (r : Reading) : ∀ last,
    led_commands last (rs ++ [r]) = led_commands last rs
      ++ if last_side last rs = some (side r.speed) then [] else pair_texts (side r.speed) := by
  induction rs with
  | nil =>
      intro last
      exact List.append_nil _
  | cons r' rs ih =>
      intro last
      rw [List.cons_append, led_commands, ih, led_commands, List.append_assoc]
      rfl

/-! ## Showing a message -/

/-- What the LED `if`s note. -/
def led_acts (do_echo : Bool) (last : Option Led) (speed : ℕ) : List Act :=
  (if last = some (side speed) then [] else pair_texts (side speed)).flatMap
    fun t => input_acts .can do_echo (ascii t)

theorem green_eq_one {s : Main} {last : Option Led} (h : s.greenLedState = (led_flags last).1) :
    s.greenLedState ≠ 1 ↔ last ≠ some .one := by
  rw [h]
  cases last with
  | none => decide
  | some l => cases l <;> decide

theorem red_eq_one {s : Main} {last : Option Led} (h : s.redLedState = (led_flags last).2) :
    s.redLedState ≠ 1 ↔ last ≠ some .two := by
  rw [h]
  cases last with
  | none => decide
  | some l => cases l <;> decide

/-- The LED `if`s, with the flags at the side of the last message: a pair of
commands goes out when the side changes, and the flags follow. -/
theorem drive_leds_spec (term : List UInt8) (speed : ℕ) (s : Main) (last : Option Led)
    (hs : s.session.status = .running)
    (hflags : (s.greenLedState, s.redLedState) = led_flags last) :
    drive_leds term speed s
      = (s.log (led_acts s.session.do_echo last speed)).setLeds
          (led_flags (some (side speed))).1 (led_flags (some (side speed))).2 := by
  have hg : s.greenLedState = (led_flags last).1 := congrArg Prod.fst hflags
  have hr : s.redLedState = (led_flags last).2 := congrArg Prod.snd hflags
  -- a flag that is up already: nothing is sent and the flags stay
  have hsame : last = some (side speed) → s
      = (s.log (led_acts s.session.do_echo last speed)).setLeds
          (led_flags (some (side speed))).1 (led_flags (some (side speed))).2 := by
    intro hl
    rw [← hl, ← hg, ← hr, led_acts, if_pos hl]
    simp [Main.log, Main.setLeds]
  -- the flags are up together with the side, so both tests ask whether it is the same one
  unfold drive_leds
  simp only [green_eq_one hg, red_eq_one hr]
  by_cases hv : speed ≤ 60
  · have hside : side speed = .one := if_pos hv
    by_cases hl : last = some .one
    · rw [if_neg (by simp [hl]), if_neg (by omega)]
      exact hsame (hl.trans (by rw [hside]))
    · rw [if_pos ⟨hv, hl⟩, Main.pair_spec term s _ _ hs green_plain.1 green_plain.2, led_acts,
        hside, if_neg hl]
      rfl
  · have hside : side speed = .two := if_neg hv
    rw [if_neg (by omega)]
    by_cases hl : last = some .two
    · rw [if_neg (by simp [hl])]
      exact hsame (hl.trans (by rw [hside]))
    · rw [if_pos ⟨by omega, hl⟩, Main.pair_spec term s _ _ hs red_plain.1 red_plain.2, led_acts,
        hside, if_neg hl]
      rfl

/-- A message whose ID does not match is dropped, and leaves no trace. -/
theorem show_message_neg (term : List UInt8) (s : Main) (h : ¬ id_matches s.dataBuffer.bytes) :
    show_message term s = s := if_neg h

/-- A message whose ID matches is shown, and then the LEDs are driven, by the
speed just shown. -/
theorem show_message_pos (term : List UInt8) (s : Main) (last : Option Led)
    (hs : s.session.status = .running)
    (hflags : (s.greenLedState, s.redLedState) = led_flags last)
    (h : id_matches s.dataBuffer.bytes) :
    show_message term s
      = (s.log (.lcdScreen (reading s.dataBuffer.bytes)
            :: led_acts s.session.do_echo last (reading s.dataBuffer.bytes).speed)).setLeds
          (led_flags (some (side (reading s.dataBuffer.bytes).speed))).1
          (led_flags (some (side (reading s.dataBuffer.bytes).speed))).2 := by
  unfold show_message
  rw [if_pos h, drive_leds_spec term _ (s.log _) last hs hflags, Main.log_log]
  rfl

/-! ## The commands of every run -/

/-- The flags are the side of the last message shown, and the message handler
has sent what the messages shown ask for. -/
structure LedInv (s : Main) : Prop where
  flags : (s.greenLedState, s.redLedState) = led_flags (last_side none (shown s.session.trace))
  commands : inputs .can s.session.trace
    = (led_commands none (shown s.session.trace)).map ascii

theorem shown_led_acts (e : Bool) (last : Option Led) (speed : ℕ) :
    shown (led_acts e last speed) = [] := shown_texts .can e _

theorem inputs_led_acts (e : Bool) (last : Option Led) (speed : ℕ) :
    inputs .can (led_acts e last speed)
      = (if last = some (side speed) then [] else pair_texts (side speed)).map ascii := by
  rw [List.map_eq_flatMap]
  exact view_texts (inputs_input_acts .can e) _

/-- Acts that show nothing and send nothing on behalf of the CAN keep the
invariant, if the flags stay. -/
theorem LedInv.of_trace {s s' : Main} (h : LedInv s) (hg : s'.greenLedState = s.greenLedState)
    (hr : s'.redLedState = s.redLedState) {acts : List Act}
    (htr : s'.session.trace = s.session.trace ++ acts) (hshown : shown acts = [])
    (hinputs : inputs .can acts = []) : LedInv s' := by
  refine ⟨?_, ?_⟩
  · rw [hg, hr, htr, shown_append, hshown, List.append_nil]
    exact h.flags
  · rw [htr, shown_append, hshown, inputs_append, hinputs, List.append_nil, List.append_nil]
    exact h.commands

/-- A message whose ID matches is one more message shown. -/
theorem LedInv.shown_show {s : Main} (h : LedInv s) (term : List UInt8)
    (hs : s.session.status = .running) (hid : id_matches s.dataBuffer.bytes) :
    shown (show_message term s).session.trace
      = shown s.session.trace ++ [reading s.dataBuffer.bytes] := by
  rw [show_message_pos term s _ hs h.flags hid]
  simp only [Main.setLeds_session, Main.log_session, Session.log_trace, shown_append]
  congr 1
  change [_] ++ shown (led_acts _ _ _) = _
  rw [shown_led_acts, List.append_nil]

/-- Showing a message keeps it: the flags are at the side of the message, and
the commands sent are those of the messages so far. -/
theorem LedInv.show {s : Main} (h : LedInv s) (term : List UInt8)
    (hs : s.session.status = .running) : LedInv (show_message term s) := by
  by_cases hid : id_matches s.dataBuffer.bytes
  · have hshown := h.shown_show term hs hid
    refine ⟨?_, ?_⟩
    · rw [hshown, last_side_append, show_message_pos term s _ hs h.flags hid]
      rfl
    · rw [hshown, led_commands_append, show_message_pos term s _ hs h.flags hid, List.map_append]
      simp only [Main.setLeds_session, Main.log_session, Session.log_trace, inputs_append,
        h.commands]
      congr 1
      exact inputs_led_acts s.session.do_echo _ (reading s.dataBuffer.bytes).speed
  · rw [show_message_neg term s hid]
    exact h

theorem LedInv.stdin {term : List UInt8} {s s' : Main} (h : LedInv s)
    (hstep : StdinStep term s s') : LedInv s' := by
  have hframe := hstep.frame
  obtain ⟨acts, htr, hof⟩ := hframe.session.trace
  exact h.of_trace hframe.greenLedState hframe.redLedState htr (shown_ofStdin hof)
    (inputs_can_ofStdin hof)

theorem LedInv.recv {s s' : Main} (h : LedInv s) {term : List UInt8} {x y : List UInt8}
    (hframe : RecvFrame term s s' x y) : LedInv s' := by
  obtain ⟨acts, htr, hof, _⟩ := hframe.trace
  exact h.of_trace hframe.greenLedState hframe.redLedState htr (shown_ofRecv hof)
    (inputs_ofRecv .can hof)

/-- A message has been received in three results and shown if it has the ID. -/
structure Taken (past : List UInt8) (s s' : Main) (c d e : Chunk) (q : List Result) (ret : ℕ) :
    Prop extends LedInv s' where
  running : s'.session.status = .running
  stdin : s'.stdin = s.stdin
  socket : s'.socket = q
  recieveBuffer : s'.recieveBuffer
    = ((s.recieveBuffer.write 0 c.bytes).write 0 d.bytes).write 0 e.bytes
  shown : shown s'.session.trace = Client.shown s.session.trace ++ shows (s.glued past c d e ret)
  received : received s'.session.trace
    = Client.received s.session.trace ++ (c.bytes ++ (d.bytes ++ e.bytes))
  typed : inputs .stdin s'.session.trace = inputs .stdin s.session.trace

/-- A message received whole, with all it does: what is shown, what is sent, and
what is left of the results. -/
theorem LedInv.taken {s : Main} (h : LedInv s) (hs : s.session.status = .running)
    (term past : List UInt8) (c d e : Chunk) (q : List Result) (ret : ℕ) :
    Taken past s (show_message term (s.complete term past c d e q ret)) c d e q ret := by
  have hframe := s.complete_frame term past c d e q ret hs
  have hdata := message_data term past s c d e q ret
  have hrun : (s.complete term past c d e q ret).session.status = .running :=
    client_recv_status term _ _ hs
  have hsocket : (s.complete term past c d e q ret).socket = q := rfl
  have hbuffer : (s.complete term past c d e q ret).recieveBuffer
      = ((s.recieveBuffer.write 0 c.bytes).write 0 d.bytes).write 0 e.bytes := rfl
  -- from here on only what receiving left behind matters, not how it was put together
  generalize s.complete term past c d e q ret = s₁ at hframe hdata hrun hsocket hbuffer ⊢
  have hled := h.recv hframe
  have hshow := show_message_frame term s₁ hrun
  obtain ⟨acts, htr, hof, hxy, _⟩ := hframe.trace
  obtain ⟨acts', htr', hof'⟩ := hshow.trace
  have hshown : shown s₁.session.trace = shown s.session.trace := by
    rw [htr, shown_append, shown_ofRecv hof, List.append_nil]
  refine ⟨hled.show term hrun, hshow.status.trans hrun, hshow.stdin.trans hframe.stdin,
    hshow.socket.trans hsocket, hshow.recieveBuffer.trans hbuffer, ?_, ?_, ?_⟩
  · -- `dataBuffer` holds more than the message, but only its 24 bytes are looked at
    rw [← hdata, shows, reading_take]
    simp only [id_matches_take]
    split
    · next hid => rw [hled.shown_show term hrun hid, hshown]
    · next hid => rw [show_message_neg term s₁ hid, hshown, List.append_nil]
  · rw [htr', htr, received_append, received_append, received_ofCan hof', List.append_nil, hxy]
  · rw [htr', htr, inputs_append, inputs_append, inputs_ofRecv .stdin hof, inputs_ofCan hof',
      List.append_nil, List.append_nil]

theorem led_inv_start (b r d : CArray 512) (stdin : List Result) (scanfs : List (Option Int32))
    (socket : List Result) : LedInv (Main.start b r d stdin scanfs socket) := ⟨rfl, rfl⟩

end AutoMag.Client
