/-
`Client/Projekat1.lean` -- the poll loop of `telnet-projekat1.c`.

`main` from the point where the connection stands: the stdin branch with the CAN
setup and the LIN submenu, the socket branch with the message assembly and the
LED commands, and the loop around them. The three arrays are uninitialised in C,
so a run starts from arbitrary ones; what lies behind an array in memory is
whatever the poll that woke the loop says it is.

Three things of `main` are not kept as state, since no value of theirs outlives
the statement after the one that writes it: `setBuffer` (formatted, then sent),
and `speed`, `temperature`, `fuelLevel` (computed, then shown).
-/
import AutoMag.Client.Handler
import AutoMag.Lib.Machine

set_option autoImplicit false

namespace AutoMag.Client

open AutoMag.CMemory AutoMag.Libtelnet AutoMag.Machine

/-! ## State -/

/-- The code of a character constant. -/
def chr (c : Char) : UInt8 := c.toNat.toUInt8

/-- The value `read` or `recv` returns. -/
def Result.count : Result → ℤ
  | .data c => c.bytes.length
  | .eof => 0
  | .error _ => -1

/-- The locals of `main` and the results its calls will get: `stdin` of `read`,
`scanfs` of `scanf("%d")` (`none`: nothing converted), `socket` of `recv`. -/
structure Main where
  session : Session
  buffer : CArray 512
  recieveBuffer : CArray 512
  dataBuffer : CArray 512
  br : Int32
  rs : ℤ
  greenLedState : ℕ
  redLedState : ℕ
  stdin : List Result
  scanfs : List (Option Int32)
  socket : List Result
deriving DecidableEq

/-- One return of `poll`. A descriptor is only reported when there is something
to read on it; `pastBuffer` and `pastRecieve` are bytes in memory behind
`buffer` and `recieveBuffer` at that time, any number of them, and what is
behind those counts as NUL. -/
inductive Poll where
  | failed
  | ready (stdin sock : Bool) (pastBuffer pastRecieve : List UInt8)
deriving DecidableEq

/-- The loop is about to start. -/
def Main.start (buffer recieveBuffer dataBuffer : CArray 512) (stdin : List Result)
    (scanfs : List (Option Int32)) (socket : List Result) : Main where
  session := .start
  buffer := buffer
  recieveBuffer := recieveBuffer
  dataBuffer := dataBuffer
  br := 10000
  rs := 0
  greenLedState := 0
  redLedState := 0
  stdin := stdin
  scanfs := scanfs
  socket := socket

/-- Note acts. -/
def Main.log (s : Main) (acts : List Act) : Main := { s with session := s.session.log acts }

@[simp] theorem Main.log_session (s : Main) (acts : List Act) :
    (s.log acts).session = s.session.log acts := rfl

@[simp] theorem Main.log_buffer (s : Main) (acts : List Act) : (s.log acts).buffer = s.buffer := rfl

@[simp] theorem Main.log_log (s : Main) (as bs : List Act) :
    (s.log as).log bs = s.log (as ++ bs) := by
  simp only [Main.log, Session.log_log]

/-- The process stops where it is. -/
def Main.halt (s : Main) (status : Status) : Main :=
  { s with session := { s.session with status := status } }

/-- An assignment to `rs`. -/
def Main.setRs (s : Main) (rs : ℤ) : Main := { s with rs := rs }

@[simp] theorem Main.setRs_session (s : Main) (rs : ℤ) : (s.setRs rs).session = s.session := rfl

@[simp] theorem Main.setRs_buffer (s : Main) (rs : ℤ) : (s.setRs rs).buffer = s.buffer := rfl

/-- `break`: clean up and return 0. -/
def Main.leave (s : Main) : Main := (s.log [.telnet_free, .close]).halt (.exited 0)

/-- `fprintf(stderr, ...)` and `exit(1)`. -/
def Main.fail (s : Main) (text : String) : Main := (s.log [.fprintf text]).halt (.exited 1)

/-- `read` has returned `r`, with `rest` still to come. -/
def Main.after_read (s : Main) (r : Result) (rest : List Result) : Main :=
  { s.log [.read r] with stdin := rest, buffer := s.buffer.write 0 r.bytes }

@[simp] theorem Main.after_read_session (s : Main) (r : Result) (rest : List Result) :
    (s.after_read r rest).session = s.session.log [.read r] := rfl

/-- `read(STDIN_FILENO, buffer, sizeof(buffer))`; `none` while there is
nothing. -/
def Main.read (s : Main) : Option (Result × Main) :=
  match s.stdin with
  | [] => none
  | r :: rest => some (r, s.after_read r rest)

/-- `recv` has returned `r`, with `rest` still to come. -/
def Main.after_recv (s : Main) (r : Result) (rest : List Result) : Main :=
  { s.log [.recv r] with
    socket := rest, recieveBuffer := s.recieveBuffer.write 0 r.bytes, rs := r.count }

/-- `rs = recv(sock, recieveBuffer, sizeof(recieveBuffer), 0)`. -/
def Main.recv (s : Main) : Option (Result × Main) :=
  match s.socket with
  | [] => none
  | r :: rest => some (r, s.after_recv r rest)

/-- `_input(buffer, rs)`. -/
def Main.input_buffer (term : List UInt8) (s : Main) : Main :=
  { s with session := input term .stdin s.session s.buffer.bytes s.rs }

/-- `sprintf(setBuffer, text)` and `_input(setBuffer, strlen(setBuffer))`. -/
def command (term : List UInt8) (who : Origin) (c : Session) (text : String) : Session :=
  let setBuffer := ascii text ++ [0]
  input term who c setBuffer (strlen setBuffer)

/-! ## The stdin branch -/

/-- The digits `sprintf` writes for `%d`. -/
def decimal (v : ℤ) : List UInt8 :=
  (if v < 0 then [chr '-'] else [])
    ++ (Nat.toDigits 10 v.natAbs).map fun c => c.toNat.toUInt8

/-- `case '1'` to `case '5'` of the submenu, which differ in the text only. -/
def lin_open (term : List UInt8) (mode : String) (s : Main) : Main :=
  let s := s.log [.printf (ascii "Please enter boudrate:")]
  match s.scanfs with
  | [] => s.halt .blocked
  | v :: rest =>
      -- a `%d` that converts nothing leaves `br` as it was
      let br := v.getD s.br
      let buffer := s.buffer.write 0 (ascii mode ++ decimal br.toInt ++ ascii "\r\n" ++ [0])
      { s with
        session := input term .stdin (s.session.log [.scanf (v.map Int32.toInt)]) buffer.bytes
          (strlen buffer.bytes)
        br := br, buffer := buffer, scanfs := rest }

/-- The `switch(buffer[0])` of the LIN submenu. -/
def lin_choice (term : List UInt8) (s : Main) : Main :=
  let key := s.buffer.bytes.headD 0
  if key = chr '1' then lin_open term "LIN OPEN MASTER1X " s
  else if key = chr '2' then lin_open term "LIN OPEN MASTER2X " s
  else if key = chr '3' then lin_open term "LIN OPEN SLAVE1X  " s
  else if key = chr '4' then lin_open term "LIN OPEN SLAVE2X " s
  else if key = chr '5' then lin_open term "LIN OPEN FREE " s
  else if key = chr '6' then
    { s with
      -- the length is given as a number, one short of the text
      session := input term .stdin s.session (ascii "LIN CLOSE\r\n") (10 : ℕ)
      buffer := CArray.fill 512 0 }
  else s.log [.printf (ascii "There is no option for " ++ [key, LF])]

/-- The prompts of the LIN submenu. -/
def lin_prompts : List Act :=
  ["For lin open master1x press 1\r\n", "For lin open master2x press 2\r\n",
    "For lin open slave1x press 3\r\n", "For lin open slave2x press 4\r\n",
    "For lin open free mode press 5\r\n", "For lin close press 6\r\n"].map
      fun text => .printf (ascii text)

/-- The LIN submenu. `rs` becomes what the inner `read` returned, tested
nowhere. -/
def lin_menu (term : List UInt8) (s : Main) : Main :=
  match (s.log lin_prompts).read with
  | none => (s.log lin_prompts).halt .blocked
  | some (r, s) => lin_choice term (s.setRs r.count)

/-- The texts of the CAN setup. -/
def setup_texts : List String :=
  ["AT\r\n", "GPLED LED1 CLEAR\r\n", "GPLED LED2 CLEAR\r\n", "CAN USER ALIGN RIGHT\r\n",
    "CAN USER OPEN CH2 83k3\r\n", "CAN USER FILTER CH2 0 0010\r\n", "CAN USER MASK CH2 0010\r\n"]

/-- `case 's'`: the CAN setup. -/
def can_setup (term : List UInt8) (s : Main) : Main :=
  { s with session := setup_texts.foldl (command term .stdin) s.session }

/-- The prompts of the main menu. -/
def menu_prompts : List Act :=
  ["Choose s for CAN setup\r\n", "Choose l for LIN options\r\n", "Choose q for EXIT\r\n"].map
    fun text => .printf (ascii text)

/-- The `switch(buffer[0])` of the main menu. -/
def menu_choice (term : List UInt8) (s : Main) : Main :=
  let key := s.buffer.bytes.headD 0
  if key = chr 'l' then lin_menu term s
  else if key = chr 's' then can_setup term s
  -- `exit(1)` on the spot, without `telnet_free`
  else if key = chr 'q' then s.halt (.exited 1)
  else (s.input_buffer term).log
    [.printf (ascii "There is no option for " ++ [key] ++ ascii " please choose again\r\n")]

/-- The main menu. -/
def menu (term : List UInt8) (s : Main) : Main := menu_choice term (s.log menu_prompts)

/-- A successful read: the menu, or the text of a buffer that begins with NUL;
and after either, unless the process has stopped, the trailing
`_input(buffer, rs)`. -/
def typed (term pastBuffer : List UInt8) (s : Main) : Main :=
  let s :=
    if 1 ≤ strlen (s.buffer.bytes ++ pastBuffer) then menu term s
    else s.input_buffer term
  if s.session.status = .running then s.input_buffer term else s

/-- The stdin branch. The assignment in its condition is `rs = (read(...) > 0)`,
so `rs` is 1 after any successful read and 0 after any other. -/
def stdin_branch (term pastBuffer : List UInt8) (s : Main) : Main :=
  match s.read with
  | none => s.halt .blocked
  | some (.data _, s) => typed term pastBuffer (s.setRs 1)
  -- end of file and error are not told apart
  | some (_, s) => (s.setRs 0).leave

/-! ## The socket branch -/

/-- `htoi`: a hexadecimal digit, or 0. -/
def htoi (c : UInt8) : ℕ :=
  if chr 'a' ≤ c ∧ c ≤ chr 'f' then c.toNat - (chr 'a').toNat + 10
  else if chr 'A' ≤ c ∧ c ≤ chr 'F' then c.toNat - (chr 'A').toNat + 10
  else if chr '0' ≤ c ∧ c ≤ chr '9' then c.toNat - (chr '0').toNat
  else 0

/-- `checkMsg`. -/
def checkMsg : List UInt8 := ascii "RX2"

/-- The values taken out of `dataBuffer`. -/
def reading (d : List UInt8) : Reading where
  fuel := htoi (d.getD 18 0)
  temperature := htoi (d.getD 22 0) + (htoi (d.getD 21 0) <<< 4)
  speed := htoi (d.getD 10 0) + (htoi (d.getD 9 0) <<< 4)

/-- The assignments to `greenLedState` and `redLedState`. -/
def Main.setLeds (s : Main) (green red : ℕ) : Main :=
  { s with greenLedState := green, redLedState := red }

@[simp] theorem Main.setLeds_session (s : Main) (green red : ℕ) :
    (s.setLeds green red).session = s.session := rfl

/-- Two commands of the message handler, in a row. -/
def Main.pair (term : List UInt8) (s : Main) (first second : String) : Main :=
  { s with session := command term .can (command term .can s.session first) second }

/-- The `if`s that drive the LEDs, on a difference only. -/
def drive_leds (term : List UInt8) (speed : ℕ) (s : Main) : Main :=
  if speed ≤ 60 ∧ s.greenLedState ≠ 1 then
    (s.pair term "\r\n GPLED LED1 SET\n" "GPLED LED2 CLEAR\n").setLeds 1 0
  else if 60 < speed ∧ s.redLedState ≠ 1 then
    (s.pair term "GPLED LED2 SET\n" "GPLED LED1 CLEAR\n").setLeds 0 1
  else s

/-- The check of the part of the ID that is looked at. -/
def id_matches (d : List UInt8) : Prop := d.getD 6 0 = 0x31 ∧ d.getD 7 0 = 0x30

instance (d : List UInt8) : Decidable (id_matches d) := inferInstanceAs (Decidable (_ ∧ _))

/-- What happens once the third part is in `dataBuffer`. -/
def show_message (term : List UInt8) (s : Main) : Main :=
  if id_matches s.dataBuffer.bytes then
    drive_leds term (reading s.dataBuffer.bytes).speed
      (s.log [.lcdScreen (reading s.dataBuffer.bytes)])
  else s

/-- `dataBuffer[off..off+8) = recieveBuffer[0..8)`. -/
def Main.copy_part (s : Main) (off : ℕ) : Main :=
  { s with dataBuffer := s.dataBuffer.write off (s.recieveBuffer.bytes.take 8) }

/-- From the second `recv` on. A result that is not data ends the iteration. -/
def more_parts (term : List UInt8) (s : Main) : Main :=
  match s.recv with
  | none => s.halt .blocked
  | some (.data _, s) =>
      match (s.copy_part 8).recv with
      | none => (s.copy_part 8).halt .blocked
      -- the third part; neither of the two parts goes through `telnet_recv`
      | some (.data _, s) => show_message term (s.copy_part 16)
      | some (_, s) => s
  | some (_, s) => s

/-- The memory `strstr` walks: all of `recieveBuffer`, then what is behind
it. -/
def Main.searched (s : Main) (pastRecieve : List UInt8) : List UInt8 :=
  s.recieveBuffer.bytes ++ pastRecieve

/-- `ret[i]` for `i < 8`. -/
def first_part (mem : List UInt8) (ret : ℕ) : List UInt8 :=
  (List.range 8).map fun i => mem.getD (ret + i) 0

/-- The search, and the rest of the message when it hits. -/
def scan (term pastRecieve : List UInt8) (s : Main) : Main :=
  match strstr checkMsg (s.searched pastRecieve) with
  | none => s
  | some ret =>
      more_parts term
        { s with dataBuffer := s.dataBuffer.write 0 (first_part (s.searched pastRecieve) ret) }

/-- The socket branch. -/
def socket_branch (term pastRecieve : List UInt8) (s : Main) : Main :=
  match s.recv with
  | none => s.halt .blocked
  | some (.data c, s) =>
      -- the telnet layer gets the bytes first, and the raw array is searched all the same
      let s := { s with session := client_recv term s.session c.bytes }
      if s.session.status = .running then scan term pastRecieve s else s
  | some (.eof, s) => s.leave
  | some (.error errno, s) => s.fail ("recv(client) failed: " ++ errno ++ "\n")

/-! ## The loop -/

/-- One pass of `while (poll(pfd, 2, -1) != -1)`. -/
def iteration (term : List UInt8) (s : Main) (p : Poll) : Main :=
  if s.session.status ≠ .running then s
  else match p with
    | .failed => s.leave
    | .ready stdin sock pastBuffer pastRecieve =>
        -- read from stdin
        let s := if stdin ∧ s.stdin ≠ [] then stdin_branch term pastBuffer s else s
        -- read from client
        if s.session.status = .running ∧ sock ∧ s.socket ≠ [] then
          socket_branch term pastRecieve s
        else s

/-- `main` from the loop on, over the successive returns of `poll`. -/
def main_loop (term : List UInt8) (s : Main) (polls : List Poll) : Main :=
  run (iteration term) s polls

end AutoMag.Client
