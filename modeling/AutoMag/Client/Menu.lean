/-
`Client/Menu.lean` -- what the stdin branch does with one keystroke.

`Client/Steps.lean` says what the branch can touch; here is what it does touch, for
the reads the operator means: the CAN setup, text that is no menu key, and the
LIN operations. In each the last thing is the trailing `_input(buffer, rs)`, which
runs after every case of the menu with whatever the case left in `buffer` and `rs`.
-/
import AutoMag.Client.Steps

set_option autoImplicit false

namespace AutoMag.Client

open AutoMag.CMemory AutoMag.Libtelnet AutoMag.Machine

theorem Main.read_cons {s : Main} {r : Result} {q : List Result} (h : s.stdin = r :: q) :
    s.read = some (r, s.after_read r q) := by
  simp only [Main.read, h]

/-- The bytes of `buffer` after a read: the new ones in front, and behind them
the rest of what was there. -/
theorem after_read_bytes (s : Main) (c : Chunk) (q : List Result) :
    (s.after_read (.data c) q).buffer.bytes = c.bytes ++ s.buffer.bytes.drop c.bytes.length :=
  s.buffer.write_zero_bytes c.bytes c.le

/-- The first byte of a chunk. -/
def Chunk.key (c : Chunk) : UInt8 := c.bytes.head c.nonempty

theorem Chunk.bytes_eq (c : Chunk) : c.bytes = c.key :: c.bytes.tail :=
  (List.cons_head_tail c.nonempty).symm

theorem after_read_headD (s : Main) (c : Chunk) (q : List Result) :
    (s.after_read (.data c) q).buffer.bytes.headD 0 = c.key := by
  rw [after_read_bytes, c.bytes_eq]
  rfl

theorem after_read_take_one (s : Main) (c : Chunk) (q : List Result) :
    (s.after_read (.data c) q).buffer.bytes.take 1 = [c.key] := by
  rw [after_read_bytes, c.bytes_eq]
  rfl

/-- A read whose first byte is not NUL opens the menu. `rs = read(...) > 0`
makes `rs` 1, however many bytes were read. -/
theorem stdin_branch_key (term past : List UInt8) {s : Main} {c : Chunk} {q : List Result}
    (hq : s.stdin = .data c :: q) (hkey : c.key ≠ 0) :
    stdin_branch term past s
      = if (menu term ((s.after_read (.data c) q).setRs 1)).session.status = .running
        then (menu term ((s.after_read (.data c) q).setRs 1)).input_buffer term
        else menu term ((s.after_read (.data c) q).setRs 1) := by
  -- `strlen` runs over the whole array and past it, but its first byte is the key
  have hlen : 1 ≤ strlen (((s.after_read (.data c) q).setRs 1).buffer.bytes ++ past) := by
    change 1 ≤ strlen ((s.after_read (.data c) q).buffer.bytes ++ past)
    rw [after_read_bytes, c.bytes_eq, List.cons_append, List.cons_append, strlen_cons, if_neg hkey]
    omega
  unfold stdin_branch
  rw [Main.read_cons hq]
  unfold typed
  simp only
  rw [if_pos hlen]

/-- A read that brings nothing ends the loop, an error no less than the end of
the input. -/
theorem stdin_branch_end (term past : List UInt8) {s : Main} {r : Result} {q : List Result}
    (hq : s.stdin = r :: q) (hr : ∀ c, r ≠ .data c) :
    stdin_branch term past s = ((s.after_read r q).setRs 0).leave := by
  unfold stdin_branch
  rw [Main.read_cons hq]
  cases r with
  | data c => exact absurd rfl (hr c)
  | eof => rfl
  | error errno => rfl

/-- `_input(buffer, rs)` with a size that is not negative: the first `rs` bytes
of `buffer`. -/
theorem input_buffer_spec (term : List UInt8) (s : Main) (n : ℕ)
    (hs : s.session.status = .running) (hrs : s.rs = n) (hn : n ≤ 512) :
    s.input_buffer term
      = s.log (input_acts .stdin s.session.do_echo (s.buffer.bytes.take n)) := by
  have hlen : (s.buffer.bytes.take n).length = n := by
    rw [List.length_take, s.buffer.size]
    omega
  unfold Main.input_buffer Main.log
  rw [hrs, input_spec term .stdin _ _ _ hs, input_acts, hlen]

/-! ## `s` -/

/-- What the CAN setup notes: its seven commands, and the key itself as text. -/
def setup_acts (do_echo : Bool) : List Act :=
  menu_prompts ++ setup_texts.flatMap (fun t => input_acts .stdin do_echo (ascii t))
    ++ input_acts .stdin do_echo [chr 's']

theorem menu_setup (term : List UInt8) (s : Main) (hs : s.session.status = .running)
    (hkey : s.buffer.bytes.headD 0 = chr 's') :
    menu term s = s.log (menu_prompts
      ++ setup_texts.flatMap fun t => input_acts .stdin s.session.do_echo (ascii t)) := by
  unfold menu menu_choice
  simp only [Main.log_buffer, hkey]
  rw [if_neg (by decide), if_pos trivial, can_setup,
    commands_spec term .stdin _ (s.log menu_prompts).session hs setup_texts_plain, ← Main.log_log]
  rfl

/-- A read that begins with `s`: the seven commands of the setup, and then the
`s` itself. -/
theorem stdin_branch_setup (term past : List UInt8) {s : Main} {c : Chunk} {q : List Result}
    (hq : s.stdin = .data c :: q) (hkey : c.key = chr 's') (hs : s.session.status = .running) :
    stdin_branch term past s
      = ((s.after_read (.data c) q).setRs 1).log (setup_acts s.session.do_echo) := by
  -- `case 's'` touches neither `buffer` nor `rs`, so the trailing `_input` sends the key
  have hmenu := menu_setup term ((s.after_read (.data c) q).setRs 1) hs
    ((after_read_headD s c q).trans hkey)
  have htake : ((s.after_read (.data c) q).setRs 1).buffer.bytes.take 1 = [chr 's'] := by
    rw [← hkey]; exact after_read_take_one s c q
  rw [stdin_branch_key term past hq (by rw [hkey]; decide), hmenu, if_pos (by exact hs),
    input_buffer_spec term _ 1]
  · simp only [Main.log_buffer, htake, Main.log_log, Main.log_session, Session.log_do_echo]
    rfl
  · exact hs
  · rfl
  · omega

/-- The pass in which only stdin is ready and brings `s`. -/
theorem iteration_setup (term pastBuffer pastRecieve : List UInt8) {s : Main} {c : Chunk}
    {q : List Result} (hq : s.stdin = .data c :: q) (hkey : c.key = chr 's')
    (hs : s.session.status = .running) :
    iteration term s (.ready true false pastBuffer pastRecieve)
      = ((s.after_read (.data c) q).setRs 1).log (setup_acts s.session.do_echo) := by
  have hbranch : (if True ∧ s.stdin ≠ [] then stdin_branch term pastBuffer s else s)
      = ((s.after_read (.data c) q).setRs 1).log (setup_acts s.session.do_echo) := by
    rw [if_pos ⟨trivial, by simp [hq]⟩, stdin_branch_setup term pastBuffer hq hkey hs]
  unfold iteration
  rw [if_neg (by simp [hs])]
  simp only [hbranch]
  rw [if_neg (by simp)]

/-! ## Text -/

/-- What a read that is no menu key notes: its first byte, twice. -/
def text_acts (do_echo : Bool) (key : UInt8) : List Act :=
  menu_prompts ++ input_acts .stdin do_echo [key]
    ++ [.printf (ascii "There is no option for " ++ [key] ++ ascii " please choose again\r\n")]
    ++ input_acts .stdin do_echo [key]

/-- No option has this key: it is sent as it is, and the menu says so. -/
theorem menu_text (term : List UInt8) (s : Main) (hs : s.session.status = .running)
    (hrs : s.rs = 1) {key : UInt8} (hkey : s.buffer.bytes.take 1 = [key]) (hl : key ≠ chr 'l')
    (hs' : key ≠ chr 's') (hqu : key ≠ chr 'q') :
    menu term s = s.log (menu_prompts ++ input_acts .stdin s.session.do_echo [key]
      ++ [.printf (ascii "There is no option for " ++ [key]
        ++ ascii " please choose again\r\n")]) := by
  have hhead : s.buffer.bytes.headD 0 = key := by
    cases hb : s.buffer.bytes with
    | nil => rw [hb] at hkey; cases hkey
    | cons b bs => rw [hb] at hkey; cases hkey; rfl
  unfold menu menu_choice
  simp only [Main.log_buffer, hhead]
  rw [if_neg hl, if_neg hs', if_neg hqu,
    input_buffer_spec term (s.log menu_prompts) 1 hs hrs (by omega)]
  simp only [Main.log_buffer, hkey, Main.log_log, Main.log_session, Session.log_do_echo]

/-- A read that begins with none of NUL, `l`, `s`, `q`: the first byte goes out
twice, from the menu and from behind it, and the others not at all. -/
theorem stdin_branch_text (term past : List UInt8) {s : Main} {c : Chunk} {q : List Result}
    (hq : s.stdin = .data c :: q) (h0 : c.key ≠ 0) (hl : c.key ≠ chr 'l') (hs' : c.key ≠ chr 's')
    (hqu : c.key ≠ chr 'q') (hs : s.session.status = .running) :
    stdin_branch term past s
      = ((s.after_read (.data c) q).setRs 1).log (text_acts s.session.do_echo c.key) := by
  -- `rs` is 1 and not the number of bytes read: one byte each time, the key
  have htake : ((s.after_read (.data c) q).setRs 1).buffer.bytes.take 1 = [c.key] :=
    after_read_take_one s c q
  have hmenu := menu_text term ((s.after_read (.data c) q).setRs 1) hs rfl htake hl hs' hqu
  rw [stdin_branch_key term past hq h0, hmenu, if_pos (by exact hs), input_buffer_spec term _ 1]
  · simp only [Main.log_buffer, htake, Main.log_log, Main.log_session, Session.log_do_echo]
    rfl
  · exact hs
  · rfl
  · omega

/-! ## The LIN submenu -/

/-- The five ways to open the LIN bus. -/
inductive LinMode where
  | master1x | master2x | slave1x | slave2x | free
deriving DecidableEq, Repr

/-- The key that chooses it. -/
def LinMode.key : LinMode → UInt8
  | .master1x => chr '1'
  | .master2x => chr '2'
  | .slave1x => chr '3'
  | .slave2x => chr '4'
  | .free => chr '5'

/-- The command, up to the baud rate. -/
def LinMode.text : LinMode → String
  | .master1x => "LIN OPEN MASTER1X "
  | .master2x => "LIN OPEN MASTER2X "
  | .slave1x => "LIN OPEN SLAVE1X  "
  | .slave2x => "LIN OPEN SLAVE2X "
  | .free => "LIN OPEN FREE "

/-- The whole command line. -/
def LinMode.line (m : LinMode) (baud : ℤ) : List UInt8 := ascii m.text ++ decimal baud

/-- The mode a key of the submenu stands for. -/
def LinMode.of_key (key : UInt8) : Option LinMode :=
  [LinMode.master1x, .master2x, .slave1x, .slave2x, .free].find? fun m => m.key = key

theorem LinMode.of_key_key (m : LinMode) : LinMode.of_key m.key = some m := by
  cases m <;> decide

theorem lin_choice_open (term : List UInt8) (s : Main) (m : LinMode)
    (hkey : s.buffer.bytes.headD 0 = m.key) : lin_choice term s = lin_open term m.text s := by
  unfold lin_choice
  simp only [hkey]
  cases m <;> rfl

/-- A number is written without NUL, in at most eleven characters if it fits an
`int`. -/
theorem decimal_ne_zero (v : ℤ) : ∀ b ∈ decimal v, b ≠ 0 := by
  intro b hb
  rcases List.mem_append.mp hb with hb | hb
  · split at hb
    · rw [List.mem_singleton.mp hb]
      decide
    · cases hb
  · obtain ⟨c, hc, rfl⟩ := List.mem_map.mp hb
    -- a digit has a code from 48 to 57
    have hdigit := Nat.isDigit_of_mem_toDigits (by omega) (by omega) hc
    simp only [Char.isDigit, Bool.and_eq_true, decide_eq_true_eq] at hdigit
    obtain ⟨h1, h2⟩ := hdigit
    have h1' : 48 ≤ c.toNat := h1
    have h2' : c.toNat ≤ 57 := h2
    intro h0
    have : c.toNat.toUInt8.toNat = 0 := by rw [h0]; rfl
    simp at this
    omega

theorem decimal_length (v : Int32) : (decimal v.toInt).length ≤ 11 := by
  have hlt : v.toInt.natAbs < 10 ^ 10 := by
    have h1 := v.toInt_lt
    have h2 := v.le_toInt
    omega
  have hdigits := (Nat.length_toDigits_le_iff (by omega) (by omega)).mpr hlt
  unfold decimal
  split <;> simp <;> omega

/-- 18 for the longest command, 11 for the number, 2 for the line end: far from
512. -/
theorem line_length_le (m : LinMode) (v : Int32) :
    (m.line v.toInt ++ ascii "\r\n").length ≤ 31 := by
  have htext : (ascii m.text).length ≤ 18 := by cases m <;> decide
  have hdecimal := decimal_length v
  have hcrlf : (ascii "\r\n").length = 2 := rfl
  simp only [LinMode.line, List.length_append]
  omega

/-- `buffer` after the `sprintf` of a LIN command, and `br`, and the numbers
left to read. -/
def Main.opened (s : Main) (m : LinMode) (v : Int32) (rest : List (Option Int32)) : Main :=
  { s with
    br := v, scanfs := rest
    buffer := s.buffer.write 0 (m.line v.toInt ++ ascii "\r\n" ++ [0]) }

/-- `sprintf` writes the command with its NUL over the front of `buffer`. -/
theorem opened_bytes (s : Main) (m : LinMode) (v : Int32) (rest : List (Option Int32)) :
    (s.opened m v rest).buffer.bytes = m.line v.toInt ++ ascii "\r\n" ++ 0
      :: s.buffer.bytes.drop (m.line v.toInt ++ ascii "\r\n" ++ [0]).length := by
  have hlen : (m.line v.toInt ++ ascii "\r\n" ++ [0]).length ≤ 512 := by
    have hline := line_length_le m v
    rw [List.length_append, List.length_singleton]
    omega
  unfold Main.opened
  rw [CArray.write_zero_bytes _ _ hlen]
  simp

theorem line_ne_zero (m : LinMode) (v : ℤ) : ∀ b ∈ m.line v ++ ascii "\r\n", b ≠ 0 := by
  intro b hb
  rcases List.mem_append.mp hb with hb | hb
  · rcases List.mem_append.mp hb with hb | hb
    · have hplain : Plain m.text := by cases m <;> decide
      exact hplain b hb
    · exact decimal_ne_zero v b hb
  · have hplain : Plain "\r\n" := by decide
    exact hplain b hb

/-- A mode, with a number that may not have been converted: `br` then stays as
it was, and the command is made with the old one. -/
theorem lin_open_spec (term : List UInt8) (s : Main) (m : LinMode) (v : Option Int32)
    (rest : List (Option Int32)) (hs : s.session.status = .running) (hv : s.scanfs = v :: rest) :
    lin_open term m.text s
      = (s.opened m (v.getD s.br) rest).log (.printf (ascii "Please enter boudrate:")
          :: .scanf (v.map Int32.toInt)
          :: input_acts .stdin s.session.do_echo (m.line (v.getD s.br).toInt ++ ascii "\r\n")) := by
  have hbytes := opened_bytes s m (v.getD s.br) rest
  -- the NUL `sprintf` writes is the first in the array, so `strlen` is the length of the
  -- command and nothing of an older, longer text goes out
  have hstrlen : strlen (s.opened m (v.getD s.br) rest).buffer.bytes
      = (m.line (v.getD s.br).toInt ++ ascii "\r\n").length := by
    rw [hbytes]
    exact strlen_append_nul _ _ (line_ne_zero m _)
  have htake : (s.opened m (v.getD s.br) rest).buffer.bytes.take
      (m.line (v.getD s.br).toInt ++ ascii "\r\n").length
        = m.line (v.getD s.br).toInt ++ ascii "\r\n" := by
    rw [hbytes, List.take_left]
  have hopen : lin_open term m.text s = { s.opened m (v.getD s.br) rest with
      session := input term .stdin (s.session.log [.printf (ascii "Please enter boudrate:"),
        .scanf (v.map Int32.toInt)]) (s.opened m (v.getD s.br) rest).buffer.bytes
        (strlen (s.opened m (v.getD s.br) rest).buffer.bytes) } := by
    have hscan : (s.log [.printf (ascii "Please enter boudrate:")]).scanfs = v :: rest := hv
    unfold lin_open
    simp only [hscan]
    simp [Main.opened, LinMode.line, Main.log]
  rw [hopen, hstrlen, input_spec term .stdin (s.session.log _) _ _ hs, htake]
  simp [Main.log, Main.opened, input_acts]

/-! ## Whole operations -/

/-- What the operator can do with the menu. -/
inductive Op where
  | setup
  | lin_open (mode : LinMode) (baud : Int32)
  | lin_close
deriving DecidableEq, Repr

/-- A key in a read of its own. -/
def keystroke (b : UInt8) : Result := .data ⟨[b], by simp, by simp⟩

/-- The keys of an operation. -/
def Op.keys : Op → List Result
  | .setup => [keystroke (chr 's')]
  | .lin_open mode _ => [keystroke (chr 'l'), keystroke mode.key]
  | .lin_close => [keystroke (chr 'l'), keystroke (chr '6')]

/-- The number typed with it. -/
def Op.bauds : Op → List (Option Int32)
  | .lin_open _ baud => [some baud]
  | _ => []

/-- What the program does for an operation. The last text each time is the
trailing `_input(buffer, rs)`: the key, the `L` of the command just formatted,
or the NUL that `bzero` left. -/
def Op.acts (do_echo : Bool) : Op → List Act
  | .setup => .read (keystroke (chr 's')) :: setup_acts do_echo
  | .lin_open mode baud =>
      .read (keystroke (chr 'l')) :: menu_prompts ++ lin_prompts
        ++ [.read (keystroke mode.key), .printf (ascii "Please enter boudrate:"),
          .scanf (some baud.toInt)]
        ++ input_acts .stdin do_echo (mode.line baud.toInt ++ ascii "\r\n")
        ++ input_acts .stdin do_echo [chr 'L']
  | .lin_close =>
      .read (keystroke (chr 'l')) :: menu_prompts ++ lin_prompts ++ [.read (keystroke (chr '6'))]
        ++ input_acts .stdin do_echo (ascii "LIN CLOSE\r") ++ input_acts .stdin do_echo [0]

/-- The submenu up to its `switch`: `l` and the key chosen have been read. -/
def Main.at_lin (s : Main) (k : UInt8) (q : List Result) : Main :=
  ((((s.after_read (keystroke (chr 'l')) (keystroke k :: q)).setRs 1).log
    (menu_prompts ++ lin_prompts)).after_read (keystroke k) q).setRs 1

@[simp] theorem Main.at_lin_session (s : Main) (k : UInt8) (q : List Result) :
    (s.at_lin k q).session
      = s.session.log (.read (keystroke (chr 'l')) :: menu_prompts ++ lin_prompts
          ++ [.read (keystroke k)]) := by
  simp [Main.at_lin]

theorem menu_lin (term : List UInt8) (s : Main) (k : UInt8) (q : List Result) :
    menu term ((s.after_read (keystroke (chr 'l')) (keystroke k :: q)).setRs 1)
      = lin_choice term (s.at_lin k q) := by
  have hkey : ((s.after_read (keystroke (chr 'l')) (keystroke k :: q)).setRs 1).buffer.bytes.headD 0
      = chr 'l' := after_read_headD s ⟨[chr 'l'], by simp, by simp⟩ (keystroke k :: q)
  unfold menu menu_choice
  simp only [Main.log_buffer, hkey]
  rw [if_pos trivial, lin_menu, Main.log_log, Main.read_cons (q := q) (by rfl)]
  rfl

/-- The stdin branch on `l` and a key: the `switch` of the submenu, and one byte
of what it left in `buffer`. -/
theorem stdin_branch_lin (term past : List UInt8) {s s' : Main} {k b : UInt8} {q : List Result}
    (hq : s.stdin = keystroke (chr 'l') :: keystroke k :: q)
    (hchoice : lin_choice term (s.at_lin k q) = s') (hs : s'.session.status = .running)
    (hrs : s'.rs = 1) (hb : s'.buffer.bytes.take 1 = [b]) :
    stdin_branch term past s = s'.log (input_acts .stdin s'.session.do_echo [b]) := by
  rw [stdin_branch_key term past hq (by decide)]
  change (if (menu term ((s.after_read (keystroke (chr 'l')) (keystroke k :: q)).setRs
    1)).session.status = .running then _ else _) = _
  rw [menu_lin, hchoice, if_pos hs]
  change Main.input_buffer term (menu term ((s.after_read (keystroke (chr 'l'))
    (keystroke k :: q)).setRs 1)) = _
  rw [menu_lin, hchoice, input_buffer_spec term s' 1 hs hrs (by omega), hb]

/-- The closing command is a literal, and `buffer` is cleared behind it. -/
theorem lin_choice_close (term : List UInt8) (s : Main) (hs : s.session.status = .running)
    (hkey : s.buffer.bytes.headD 0 = chr '6') :
    lin_choice term s
      = { s.log (input_acts .stdin s.session.do_echo (ascii "LIN CLOSE\r")) with
          buffer := CArray.fill 512 0 } := by
  have htake : (ascii "LIN CLOSE\r\n").take 10 = ascii "LIN CLOSE\r" := by decide
  unfold lin_choice
  simp only [hkey]
  rw [if_neg (by decide), if_neg (by decide), if_neg (by decide), if_neg (by decide),
    if_neg (by decide), if_pos trivial, input_spec term .stdin _ _ 10 hs, htake]
  rfl

/-- **One operation of the menu**, from its keys to the acts it leaves in the
trace, with the keyboard and the answers moved on behind it. -/
theorem stdin_branch_op (term past : List UInt8) {s : Main} {op : Op} {q : List Result}
    {vs : List (Option Int32)} (hs : s.session.status = .running)
    (hq : s.stdin = op.keys ++ q) (hv : s.scanfs = op.bauds ++ vs) :
    (stdin_branch term past s).stdin = q ∧ (stdin_branch term past s).scanfs = vs
      ∧ (stdin_branch term past s).session = s.session.log (op.acts s.session.do_echo) := by
  cases op with
  | setup =>
      rw [stdin_branch_setup term past hq rfl hs]
      refine ⟨rfl, hv, ?_⟩
      simp [Op.acts, keystroke]
  | lin_open mode baud =>
      have hchoice : lin_choice term (s.at_lin mode.key q)
          = ((s.at_lin mode.key q).opened mode baud vs).log
            (.printf (ascii "Please enter boudrate:") :: .scanf (some baud.toInt)
              :: input_acts .stdin s.session.do_echo (mode.line baud.toInt ++ ascii "\r\n")) := by
        rw [lin_choice_open term _ mode (after_read_headD _ _ _),
          lin_open_spec term (s.at_lin mode.key q) mode (some baud) vs (by simpa using hs) hv]
        simp
      -- the trailing `_input` finds the command itself in `buffer`
      have htake : ((s.at_lin mode.key q).opened mode baud vs).buffer.bytes.take 1 = [chr 'L'] := by
        rw [opened_bytes]
        cases mode <;> rfl
      rw [stdin_branch_lin term past hq hchoice (by simpa [Main.opened] using hs) rfl htake]
      refine ⟨rfl, rfl, ?_⟩
      simp [Op.acts, Main.opened]
  | lin_close =>
      -- `bzero` has run by the time of the trailing `_input`, so it sends a NUL
      have hchoice := lin_choice_close term (s.at_lin (chr '6') q) (by simpa using hs)
        (after_read_headD _ _ _)
      rw [stdin_branch_lin (b := 0) term past hq hchoice (by simpa using hs) rfl rfl]
      refine ⟨rfl, hv, ?_⟩
      simp [Op.acts]

end AutoMag.Client
