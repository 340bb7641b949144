/-
`Client/TelnetClient.lean` -- `telnet-client.c`, the client the Makefile builds.

Option table, `_event_handler` and `_input` are those of `Client/Handler.lean`, word for
word. `main` is new in two places: before the poll loop it asks for a baud rate and reads
the answer with `getchar`, and in the stdin branch a read of a single byte is a key of a
menu, while a longer one is text.

`getchar` takes its bytes from the buffer of stdio and `read` from the descriptor, so the
prompt has an input of its own here. Plain `char` is signed on x86 and unsigned on ARM:
`signed` is a parameter of both halves.
-/
import AutoMag.Client.Menu

set_option autoImplicit false

namespace AutoMag.Client

open AutoMag.CMemory AutoMag.Libtelnet AutoMag.Machine

/-! ## The prompt -/

/-- `getchar()`: the next byte of stdin, and at its end `EOF`, however often it
is called. -/
def getchar : List UInt8 → ℤ × List UInt8
  | [] => (-1, [])
  | b :: bs => (b.toNat, bs)

/-- The value of an `int` assigned to a plain `char`. -/
def plain_char (signed : Bool) (v : ℤ) : ℤ := if signed then v.bmod 256 else v % 256

/-- The byte `%c` prints. -/
def char_byte (c : ℤ) : UInt8 := (c % 256).toNat.toUInt8

/-- What is left of stdin, and the characters printed so far. -/
structure Prompt where
  stdin : List UInt8
  shown : List UInt8
deriving DecidableEq

/-- One pass of `while(c = getchar())`. The value is narrowed before it is
tested, and nothing tests it for `EOF`. -/
def prompt_step (signed : Bool) (s : Prompt) : Prompt ⊕ Prompt :=
  let c := plain_char signed (getchar s.stdin).1
  let s := { s with stdin := (getchar s.stdin).2 }
  if c = 0 then .inr s
  else if c = LF.toNat then .inr s
  else .inl { s with shown := s.shown ++ [char_byte c] }

/-- A character the prompt stops at. -/
def stops (b : UInt8) : Bool := b = 0 ∨ b = LF

/-- What is asked of the prompt: it ends at the first newline or NUL, or else at
the end of the input, and has printed what stands before. -/
def PromptEnds (signed : Bool) (stdin : List UInt8) : Prop :=
  Ends (prompt_step signed) ⟨stdin, []⟩
    ⟨(stdin.dropWhile fun b => !stops b).tail, stdin.takeWhile fun b => !stops b⟩

/-! ### One character -/

theorem plain_char_byte_zero (signed : Bool) (b : UInt8) :
    plain_char signed b.toNat = 0 ↔ b = 0 := by
  have hlt := b.toNat_lt
  have hb : b = 0 ↔ b.toNat = 0 := UInt8.toNat_inj.symm
  rw [hb]
  unfold plain_char
  split
  · rw [Int.bmod_def]
    omega
  · omega

theorem plain_char_byte_lf (signed : Bool) (b : UInt8) :
    plain_char signed b.toNat = LF.toNat ↔ b = LF := by
  have hlt := b.toNat_lt
  have hb : b = LF ↔ b.toNat = LF.toNat := UInt8.toNat_inj.symm
  have hten : LF.toNat = 10 := rfl
  rw [hb, hten]
  unfold plain_char
  split
  · rw [Int.bmod_def]
    omega
  · omega

/-- Widened by `%c` to an `unsigned char`, it is the byte again, whichever sign
plain `char` has. -/
theorem char_byte_plain_char (signed : Bool) (b : UInt8) :
    char_byte (plain_char signed b.toNat) = b := by
  have hlt := b.toNat_lt
  have hmod : plain_char signed b.toNat % 256 = b.toNat := by
    unfold plain_char
    split
    · rw [Int.bmod_def]
      omega
    · omega
  unfold char_byte
  rw [hmod, Int.toNat_natCast]
  exact UInt8.ofNat_toNat

theorem stops_iff (b : UInt8) : stops b = true ↔ b = 0 ∨ b = LF := by
  simp only [stops, decide_eq_true_eq]

theorem prompt_step_stop (signed : Bool) {b : UInt8} (hb : stops b) (bs shown : List UInt8) :
    prompt_step signed ⟨b :: bs, shown⟩ = .inr ⟨bs, shown⟩ := by
  unfold prompt_step
  simp only [getchar, plain_char_byte_zero, plain_char_byte_lf]
  rcases (stops_iff b).mp hb with rfl | rfl
  · rw [if_pos rfl]
  · rw [if_neg (by decide), if_pos rfl]

theorem prompt_step_pass (signed : Bool) {b : UInt8} (hb : ¬ stops b) (bs shown : List UInt8) :
    prompt_step signed ⟨b :: bs, shown⟩ = .inl ⟨bs, shown ++ [b]⟩ := by
  have hb' := fun h => hb ((stops_iff b).mpr h)
  unfold prompt_step
  simp only [getchar, plain_char_byte_zero, plain_char_byte_lf, char_byte_plain_char]
  rw [if_neg fun h => hb' (Or.inl h), if_neg fun h => hb' (Or.inr h)]

/-- `EOF` narrows to -1 or to 255: neither is NUL or a newline, so the loop
takes it for a character and goes on. -/
theorem prompt_step_eof (signed : Bool) (shown : List UInt8) :
    prompt_step signed ⟨[], shown⟩ = .inl ⟨[], shown ++ [255]⟩ := by
  cases signed <;> rfl

/-! ### The loop -/

/-- Up to the first byte to stop at everything is echoed, and that byte is taken
and not echoed. By induction on the input. -/
theorem prompt_ends_of_stop (signed : Bool) {stdin : List UInt8} (h : ∃ b ∈ stdin, stops b) :
    ∀ shown, Ends (prompt_step signed) ⟨stdin, shown⟩
      ⟨(stdin.dropWhile fun b => !stops b).tail,
        shown ++ stdin.takeWhile fun b => !stops b⟩ := by
  induction stdin with
  | nil =>
      obtain ⟨b, hb, _⟩ := h
      cases hb
  | cons b bs ih =>
      intro shown
      by_cases hb : stops b = true
      · have hstep := prompt_step_stop signed hb bs shown
        simpa [hb] using Ends.leave (prompt_step signed) hstep
      · -- the stop is further on
        have hbs : ∃ b ∈ bs, stops b := by
          obtain ⟨x, hx, hstop⟩ := h
          rcases List.mem_cons.mp hx with rfl | hx
          · exact absurd hstop hb
          · exact ⟨x, hx, hstop⟩
        have hstep := prompt_step_pass signed hb bs shown
        simpa [hb] using Ends.pass (prompt_step signed) hstep (ih hbs (shown ++ [b]))

/-- With nothing to stop at, the prompt prints the input and then 255 for ever.
The invariant of the loop is that nothing is left to stop at. -/
theorem prompt_never (signed : Bool) {stdin : List UInt8} (h : ∀ b ∈ stdin, ¬ stops b)
    (shown : List UInt8) : ¬ ∃ r, Ends (prompt_step signed) ⟨stdin, shown⟩ r := by
  rintro ⟨r, fuel, hfuel⟩
  have hnone : loop (prompt_step signed) fuel ⟨stdin, shown⟩ = none := by
    refine loop_never (prompt_step signed) (I := fun s => ∀ b ∈ s.stdin, ¬ stops b) ?_ fuel _ h
    rintro ⟨stdin, shown⟩ hI
    cases stdin with
    | nil => exact ⟨_, prompt_step_eof signed shown, hI⟩
    | cons b bs =>
        refine ⟨_, prompt_step_pass signed (hI b (List.mem_cons_self ..)) bs shown, ?_⟩
        intro x hx
        exact hI x (List.mem_cons_of_mem _ hx)
  rw [hnone] at hfuel
  cases hfuel

/-- The input holds something to stop at. -/
theorem exists_stop_iff (stdin : List UInt8) :
    (∃ b ∈ stdin, stops b = true) ↔ 0 ∈ stdin ∨ LF ∈ stdin := by
  simp only [stops_iff]
  constructor
  · rintro ⟨b, hb, rfl | rfl⟩
    · exact Or.inl hb
    · exact Or.inr hb
  · rintro (h | h)
    · exact ⟨0, h, Or.inl rfl⟩
    · exact ⟨LF, h, Or.inr rfl⟩

/-- The prompt ends only where it can stop. -/
theorem stop_of_prompt_ends (signed : Bool) {stdin : List UInt8} {shown : List UInt8}
    (h : ∃ r, Ends (prompt_step signed) ⟨stdin, shown⟩ r) : 0 ∈ stdin ∨ LF ∈ stdin := by
  by_contra hno
  refine prompt_never signed ?_ shown h
  intro b hb hs
  exact hno ((exists_stop_iff stdin).mp ⟨b, hb, hs⟩)

/-- **The prompt ends** if and only if the input holds a newline or a NUL,
whatever the sign of plain `char`; and if it ends, it ends at the first one. -/
theorem prompt_ends_iff (signed : Bool) (stdin : List UInt8) :
    (PromptEnds signed stdin ↔ 0 ∈ stdin ∨ LF ∈ stdin)
      ∧ ((∃ r, Ends (prompt_step signed) ⟨stdin, []⟩ r) ↔ 0 ∈ stdin ∨ LF ∈ stdin) := by
  have hends : (0 ∈ stdin ∨ LF ∈ stdin) → PromptEnds signed stdin := by
    intro h
    exact prompt_ends_of_stop signed ((exists_stop_iff stdin).mpr h) []
  refine ⟨⟨?_, hends⟩, stop_of_prompt_ends signed, ?_⟩
  · intro h
    exact stop_of_prompt_ends signed ⟨_, h⟩
  · intro h
    exact ⟨_, hends h⟩

/-- An answer cut off before its newline: the prompt does not end, with either
sign of plain `char`. -/
theorem prompt_unanswered :
    (¬ ∃ r, Ends (prompt_step true) ⟨ascii "9600", []⟩ r)
      ∧ ¬ ∃ r, Ends (prompt_step false) ⟨ascii "9600", []⟩ r := by
  have hnone : ∀ b ∈ ascii "9600", ¬ stops b := List.any_eq_false.mp (by decide)
  exact ⟨prompt_never true hnone [], prompt_never false hnone []⟩

/-! ## The poll loop -/

/-- The locals of `main` and the results its calls will get. `read` and `recv`
write into the same array; `buffer1` is never written. -/
structure TelnetClient where
  session : Session
  buffer : CArray 512
  buffer1 : CArray 512
  boudrate : ℤ
  stdin : List Result
  socket : List Result
deriving DecidableEq

namespace TelnetClient

/-- Note acts. -/
def log (s : TelnetClient) (acts : List Act) : TelnetClient :=
  { s with session := s.session.log acts }

/-- The process stops where it is. -/
def halt (s : TelnetClient) (status : Status) : TelnetClient :=
  { s with session := { s.session with status := status } }

/-- `break`: clean up and return 0. -/
def leave (s : TelnetClient) : TelnetClient := (s.log [.telnet_free, .close]).halt (.exited 0)

/-- `fprintf(stderr, ...)` and `exit(1)`. -/
def fail (s : TelnetClient) (text : String) : TelnetClient :=
  (s.log [.fprintf text]).halt (.exited 1)

/-- `read` has returned `r`, with `rest` still to come. -/
def after_read (s : TelnetClient) (r : Result) (rest : List Result) : TelnetClient :=
  { s.log [.read r] with stdin := rest, buffer := s.buffer.write 0 r.bytes }

/-- `recv` has returned `r`, with `rest` still to come. -/
def after_recv (s : TelnetClient) (r : Result) (rest : List Result) : TelnetClient :=
  { s.log [.recv r] with socket := rest, buffer := s.buffer.write 0 r.bytes }

/-- `_input(buffer, size)`. -/
def input_buffer (term : List UInt8) (s : TelnetClient) (size : ℕ) : TelnetClient :=
  { s with session := input term .stdin s.session s.buffer.bytes size }

/-- `bzero(buffer, 512)`. -/
def bzero (s : TelnetClient) : TelnetClient := { s with buffer := .fill 512 0 }

/-- What `main` prints before the loop, with the characters the prompt showed.
`str1` is printed without ever having been written; `past` is what lies behind
it. -/
def greeting (shown past : List UInt8) (str1 : CArray 30) : List Act :=
  [.printf (ascii "Enter new boudrate\n")]
    ++ shown.map (fun c => .printf (ascii "string is : " ++ [c, LF]))
    ++ [.printf (ascii " New boudrate is " ++ (str1.bytes ++ past).takeWhile (· ≠ 0) ++ [LF]),
      .printf (ascii "Choose l for LIN options\n\n"), .printf (ascii "Choose q for EXIT\n\n")]

/-- The loop is about to start. -/
def start (greeting : List Act) (buffer buffer1 : CArray 512) (stdin socket : List Result) :
    TelnetClient where
  session := Session.start.log greeting
  buffer := buffer
  buffer1 := buffer1
  boudrate := 10000
  stdin := stdin
  socket := socket

end TelnetClient

/-- `case '1'` to `case '5'` of the submenu, which differ in the text only. -/
def telnet_client_open (term : List UInt8) (mode : String) (s : TelnetClient) : TelnetClient :=
  let s := { s with
    buffer := s.buffer.write 0 (ascii mode ++ decimal s.boudrate ++ ascii "\r\n" ++ [0]) }
  (s.input_buffer term (strlen s.buffer.bytes)).bzero

/-- The `switch(buffer[0])` of the LIN submenu. -/
def telnet_client_choice (term : List UInt8) (signed : Bool) (s : TelnetClient) : TelnetClient :=
  let key := s.buffer.bytes.headD 0
  -- the new baud rate and the complaint are about `buffer1`, which holds nothing
  let other := s.buffer1.bytes.headD 0
  if key = chr '1' then telnet_client_open term "LIN OPEN MASTER1X " s
  else if key = chr '2' then telnet_client_open term "LIN OPEN MASTER2X " s
  else if key = chr '3' then telnet_client_open term "LIN OPEN SLAVE1X " s
  else if key = chr '4' then telnet_client_open term "LIN OPEN SLAVE2X " s
  else if key = chr '5' then telnet_client_open term "LIN OPEN FREE " s
  else if key = chr '6' then
    { s with session := input term .stdin s.session (ascii "LIN CLOSE\r\n") (10 : ℕ) }.bzero
  else if key = chr '7' then
    { s.log [.printf (ascii "Enter new boudrate\n"),
        .printf (ascii "boudrate set to " ++ [other, LF])] with
      boudrate := plain_char signed other.toNat - (chr '0').toNat }
  else s.log [.printf (ascii "There is no option for " ++ [other, LF])]

/-- The prompts of the LIN submenu. -/
def telnet_client_prompts : List Act :=
  ["For lin open master1x press 1\r\n", "For lin open master2x press 2\r\n",
    "For lin open slave1x press 3\r\n", "For lin open slave2x press 4\r\n",
    "For lin open free press 5\r\n", "For lin close press 6\r\n",
    "For set boudrate press 7\r\n"].map fun text => .printf (ascii text)

/-- The LIN submenu. What the inner `read` returned is tested nowhere. -/
def telnet_client_lin (term : List UInt8) (signed : Bool) (s : TelnetClient) : TelnetClient :=
  let s := s.bzero.log telnet_client_prompts
  match s.stdin with
  | [] => s.halt .blocked
  | r :: rest => telnet_client_choice term signed (s.after_read r rest)

/-- The `switch(buffer[0])` of the main menu. -/
def telnet_client_menu (term : List UInt8) (signed : Bool) (s : TelnetClient) : TelnetClient :=
  let key := s.buffer.bytes.headD 0
  if key = chr 'l' then telnet_client_lin term signed s
  else if key = chr 'q' then s.halt (.exited 1)
  else s.log [.printf (ascii "There is no option for " ++ [key, LF])]

/-- The stdin branch. -/
def telnet_client_stdin (term : List UInt8) (signed : Bool) (s : TelnetClient) : TelnetClient :=
  match s.stdin with
  | [] => s.halt .blocked
  | r :: rest =>
      let s := s.after_read r rest
      match r with
      | .data c =>
          -- one byte is a key of the menu, more than one is text
          if c.bytes.length < 2 then telnet_client_menu term signed s
          else s.input_buffer term c.bytes.length
      | .eof => s.leave
      | .error errno => s.fail ("recv(server) failed: " ++ errno ++ "\n")

/-- The socket branch. -/
def telnet_client_socket (term : List UInt8) (s : TelnetClient) : TelnetClient :=
  match s.socket with
  | [] => s.halt .blocked
  | r :: rest =>
      let s := s.after_recv r rest
      match r with
      | .data c => { s with session := client_recv term s.session c.bytes }
      | .eof => s.leave
      | .error errno => s.fail ("recv(client) failed: " ++ errno ++ "\n")

/-- One pass of `while (poll(pfd, 2, -1) != -1)`. -/
def telnet_client_iteration (term : List UInt8) (signed : Bool) (s : TelnetClient) (p : Poll) :
    TelnetClient :=
  if s.session.status ≠ .running then s
  else match p with
    | .failed => s.leave
    | .ready stdin sock _ _ =>
        let s := if stdin ∧ s.stdin ≠ [] then telnet_client_stdin term signed s else s
        if s.session.status = .running ∧ sock ∧ s.socket ≠ [] then telnet_client_socket term s
        else s

/-- `main`: the prompt on the input `chars`, and when it is over the poll
loop. -/
def telnet_client (term : List UInt8) (signed : Bool) (fuel : ℕ) (chars past : List UInt8)
    (str1 : CArray 30) (buffer buffer1 : CArray 512) (stdin socket : List Result)
    (polls : List Poll) : Option TelnetClient :=
  (loop (prompt_step signed) fuel ⟨chars, []⟩).map fun p =>
    run (telnet_client_iteration term signed)
      (.start (TelnetClient.greeting p.shown past str1) buffer buffer1 stdin socket) polls

/-- The poll loop is reached if and only if the prompt is answered. So what is
said below of the poll loop is said of all runs that come to it. -/
theorem telnet_client_reached (term : List UInt8) (signed : Bool) (chars past : List UInt8)
    (str1 : CArray 30) (buffer buffer1 : CArray 512) (stdin socket : List Result)
    (polls : List Poll) :
    (∃ fuel s, telnet_client term signed fuel chars past str1 buffer buffer1 stdin socket polls
        = some s) ↔ 0 ∈ chars ∨ LF ∈ chars := by
  constructor
  · rintro ⟨fuel, s, h⟩
    obtain ⟨r, hr, _⟩ := Option.map_eq_some_iff.mp h
    exact stop_of_prompt_ends signed ⟨r, fuel, hr⟩
  · intro h
    obtain ⟨fuel, hfuel⟩ := prompt_ends_of_stop signed ((exists_stop_iff chars).mpr h) []
    exact ⟨fuel, _, Option.map_eq_some_iff.mpr ⟨_, hfuel, rfl⟩⟩

/-! ## Text and keys

Only what is typed is followed from here on, and nothing typed is `l` or `q`: the LIN
submenu stays closed and the loop is not left by `exit(1)`. -/

/-- What a read is to pass on. -/
def Result.text (r : Result) : List UInt8 := if r.bytes.length < 2 then [] else r.bytes

/-- Neither `l` nor `q` was typed. -/
def Keyless (r : Result) : Prop := chr 'l' ∉ r.bytes ∧ chr 'q' ∉ r.bytes

/-- What the stdin branch has passed to `telnet_send`. -/
def TelnetClient.passed (s : TelnetClient) : List UInt8 := sent .stdin s.session.trace

theorem TelnetClient.log_passed (s : TelnetClient) (acts : List Act) :
    (s.log acts).passed = s.passed ++ sent .stdin acts := by
  unfold TelnetClient.passed TelnetClient.log
  rw [Session.log_trace, sent_append]

theorem TelnetClient.leave_passed (s : TelnetClient) : s.leave.passed = s.passed :=
  (s.log_passed [.telnet_free, .close]).trans (List.append_nil _)

theorem TelnetClient.fail_passed (s : TelnetClient) (text : String) :
    (s.fail text).passed = s.passed :=
  (s.log_passed [.fprintf text]).trans (List.append_nil _)

theorem TelnetClient.after_read_passed (s : TelnetClient) (r : Result) (q : List Result) :
    (s.after_read r q).passed = s.passed :=
  (s.log_passed [.read r]).trans (List.append_nil _)

theorem TelnetClient.after_recv_passed (s : TelnetClient) (r : Result) (q : List Result) :
    (s.after_recv r q).passed = s.passed :=
  (s.log_passed [.recv r]).trans (List.append_nil _)

theorem TelnetClient.after_read_bytes (s : TelnetClient) (c : Chunk) (q : List Result) :
    (s.after_read (.data c) q).buffer.bytes = c.bytes ++ s.buffer.bytes.drop c.bytes.length :=
  s.buffer.write_zero_bytes c.bytes c.le

/-- `_input(buffer, rs)` right after the read: all the bytes read, and nothing
else. -/
theorem TelnetClient.input_buffer_read (term : List UInt8) (s : TelnetClient) (c : Chunk)
    (q : List Result) (hs : s.session.status = .running) :
    (s.after_read (.data c) q).input_buffer term c.bytes.length
      = (s.after_read (.data c) q).log (input_acts .stdin s.session.do_echo c.bytes) := by
  have htake : (s.after_read (.data c) q).buffer.bytes.take c.bytes.length = c.bytes := by
    rw [s.after_read_bytes, List.take_left]
  unfold TelnetClient.input_buffer TelnetClient.log input_acts
  rw [input_spec term .stdin _ _ _ (by exact hs), htake]
  rfl

/-- A key other than `l` and `q` is answered on the screen, and not passed
on. -/
theorem telnet_client_menu_other (term : List UInt8) (signed : Bool) (s : TelnetClient) {c : Chunk}
    (q : List Result) (hc : Keyless (.data c)) :
    telnet_client_menu term signed (s.after_read (.data c) q)
      = (s.after_read (.data c) q).log
          [.printf (ascii "There is no option for " ++ [c.key, LF])] := by
  have hkey : (s.after_read (.data c) q).buffer.bytes.headD 0 = c.key := by
    rw [s.after_read_bytes, c.bytes_eq]
    rfl
  have hl : c.key ≠ chr 'l' := fun h => hc.1 (h ▸ List.head_mem c.nonempty)
  have hqu : c.key ≠ chr 'q' := fun h => hc.2 (h ▸ List.head_mem c.nonempty)
  unfold telnet_client_menu
  simp only [hkey]
  rw [if_neg hl, if_neg hqu]

/-- **The stdin branch** takes one read, and passes on its text: all of it, or
nothing if it is one byte. -/
theorem telnet_client_stdin_passed (term : List UInt8) (signed : Bool) {s : TelnetClient}
    {r : Result} {q : List Result} (hq : s.stdin = r :: q) (hr : Keyless r)
    (hs : s.session.status = .running) :
    (telnet_client_stdin term signed s).stdin = q
      ∧ (telnet_client_stdin term signed s).passed = s.passed ++ r.text.flatMap crlf := by
  unfold telnet_client_stdin
  rw [hq]
  simp only
  cases r with
  | data c =>
      by_cases hlen : c.bytes.length < 2
      · have htext : (Result.data c).text = [] := if_pos hlen
        rw [htext]
        simp only [if_pos hlen]
        rw [telnet_client_menu_other term signed s q hr, TelnetClient.log_passed,
          TelnetClient.after_read_passed]
        exact ⟨rfl, rfl⟩
      · have htext : (Result.data c).text = c.bytes := if_neg hlen
        rw [htext]
        simp only [if_neg hlen]
        rw [s.input_buffer_read term c q hs, TelnetClient.log_passed,
          TelnetClient.after_read_passed, sent_input_acts]
        exact ⟨rfl, rfl⟩
  | eof =>
      rw [TelnetClient.leave_passed, TelnetClient.after_read_passed]
      exact ⟨rfl, (List.append_nil _).symm⟩
  | error errno =>
      rw [TelnetClient.fail_passed, TelnetClient.after_read_passed]
      exact ⟨rfl, (List.append_nil _).symm⟩

/-- The socket branch takes nothing from stdin and passes nothing on. -/
theorem telnet_client_socket_passed (term : List UInt8) (s : TelnetClient)
    (hs : s.session.status = .running) :
    (telnet_client_socket term s).stdin = s.stdin
      ∧ (telnet_client_socket term s).passed = s.passed := by
  unfold telnet_client_socket
  split
  · exact ⟨rfl, rfl⟩
  · next r rest _ =>
      cases r with
      | data c =>
          refine ⟨rfl, ?_⟩
          have htr := client_recv_trace term (s.after_recv (.data c) rest).session c.bytes hs
          -- the telnet layer replies, and no reply goes through `telnet_send`
          have hblind : sent .stdin (recv_acts term (s.after_recv (.data c) rest).session.telnet
              c.bytes) = [] :=
            sent_ofRecv .stdin fun a ha => Act.ofRecv_of_ofReply (recv_acts_ofReply term _ _ a ha)
          unfold TelnetClient.passed
          rw [htr, sent_append, hblind, List.append_nil]
          exact s.after_recv_passed (.data c) rest
      | eof =>
          rw [TelnetClient.leave_passed, TelnetClient.after_recv_passed]
          exact ⟨rfl, rfl⟩
      | error errno =>
          rw [TelnetClient.fail_passed, TelnetClient.after_recv_passed]
          exact ⟨rfl, rfl⟩

/-- The stdin results taken so far, and what they passed on. -/
def Passed (stdin : List Result) (s : TelnetClient) : Prop :=
  ∃ done, stdin = done ++ s.stdin ∧ s.passed = (done.flatMap Result.text).flatMap crlf

/-- One pass, for a keyboard on which no read is a key of the menu. -/
theorem telnet_client_iteration_passed (term : List UInt8) (signed : Bool) {stdin : List Result}
    (hkeys : ∀ r ∈ stdin, Keyless r) (s : TelnetClient) (p : Poll) (h : Passed stdin s) :
    Passed stdin (telnet_client_iteration term signed s p) := by
  unfold telnet_client_iteration
  by_cases hs : s.session.status = .running
  · rw [if_neg (by simp [hs])]
    cases p with
    | failed =>
        obtain ⟨done, hdone, hpassed⟩ := h
        exact ⟨done, hdone, s.leave_passed.trans hpassed⟩
    | ready ready sock pastBuffer pastRecieve =>
        simp only
        -- read from stdin
        have h₁ : Passed stdin (if ready = true ∧ s.stdin ≠ [] then
            telnet_client_stdin term signed s else s) := by
          split
          · next hready =>
              obtain ⟨r, q, hq⟩ := List.exists_cons_of_ne_nil hready.2
              obtain ⟨done, hdone, hpassed⟩ := h
              have hr : Keyless r := hkeys r (by rw [hdone, hq]; simp)
              obtain ⟨hrest, hnew⟩ := telnet_client_stdin_passed term signed hq hr hs
              refine ⟨done ++ [r], ?_, ?_⟩
              · rw [hdone, hq, hrest, List.append_assoc, List.singleton_append]
              · rw [hnew, hpassed, List.flatMap_append, List.flatMap_append, List.flatMap_singleton]
          · exact h
        generalize (if ready = true ∧ s.stdin ≠ [] then telnet_client_stdin term signed s else s)
          = s₁ at h₁
        -- read from client
        split
        · next hsock =>
            obtain ⟨done, hdone, hpassed⟩ := h₁
            obtain ⟨hrest, hsame⟩ := telnet_client_socket_passed term s₁ hsock.1
            exact ⟨done, by rw [hrest]; exact hdone, hsame.trans hpassed⟩
        · exact h₁
  · rw [if_pos hs]
    exact h

/-! ## Two divisions of what is typed -/

/-- One way a session can go: what the prompt showed and the arrays held, the
results of `read` and `recv`, the returns of `poll`. What is typed is neither
`l` nor `q`. -/
structure Typing where
  shown : List UInt8
  past : List UInt8
  str1 : CArray 30
  buffer : CArray 512
  buffer1 : CArray 512
  stdin : List Result
  socket : List Result
  polls : List Poll
  keyless : ∀ r ∈ stdin, Keyless r

/-- Where the session ends up. -/
def Typing.final (term : List UInt8) (signed : Bool) (a : Typing) : TelnetClient :=
  run (telnet_client_iteration term signed)
    (.start (TelnetClient.greeting a.shown a.past a.str1) a.buffer a.buffer1 a.stdin a.socket)
      a.polls

/-- The results `read` has returned. -/
def Typing.reads (term : List UInt8) (signed : Bool) (a : Typing) : List Result :=
  a.stdin.take (a.stdin.length - (a.final term signed).stdin.length)

/-- What was typed, however it was divided. -/
def Typing.typed (term : List UInt8) (signed : Bool) (a : Typing) : List UInt8 :=
  (a.reads term signed).flatMap Result.bytes

theorem greeting_sent (shown past : List UInt8) (str1 : CArray 30) :
    sent .stdin (TelnetClient.greeting shown past str1) = [] := by
  apply view_eq_nil
  intro a ha
  simp only [TelnetClient.greeting, List.mem_append, List.mem_map, List.mem_cons,
    List.not_mem_nil, or_false] at ha
  rcases ha with (rfl | ⟨_, _, rfl⟩) | rfl | rfl | rfl <;> rfl

theorem Typing.final_passed (term : List UInt8) (signed : Bool) (a : Typing) :
    Passed a.stdin (a.final term signed) := by
  refine run_invariant (telnet_client_iteration term signed) (I := Passed a.stdin) ?_ ?_ a.polls
  · intro s p h
    exact telnet_client_iteration_passed term signed a.keyless s p h
  · exact ⟨[], rfl, greeting_sent a.shown a.past a.str1⟩

/-- The reads are in front of what is left, and what they pass on is their
text. -/
theorem Typing.reads_spec (term : List UInt8) (signed : Bool) (a : Typing) :
    a.stdin = a.reads term signed ++ (a.final term signed).stdin
      ∧ (a.final term signed).passed
        = ((a.reads term signed).flatMap Result.text).flatMap crlf := by
  obtain ⟨done, hdone, hpassed⟩ := a.final_passed term signed
  have hreads : a.reads term signed = done := by
    have hlen := congrArg List.length hdone
    rw [List.length_append] at hlen
    have htake : a.stdin.length - (a.final term signed).stdin.length = done.length := by omega
    unfold Typing.reads
    rw [htake, hdone, List.take_left]
  rw [hreads]
  exact ⟨hdone, hpassed⟩

theorem length_crlf_pos (b : UInt8) : 1 ≤ (crlf b).length := by
  unfold crlf
  split <;> simp

theorem text_length_le (r : Result) :
    (r.text.flatMap crlf).length ≤ (r.bytes.flatMap crlf).length := by
  unfold Result.text
  split
  · exact Nat.zero_le _
  · exact le_rfl

theorem texts_length_le (rs : List Result) :
    ((rs.flatMap Result.text).flatMap crlf).length
      ≤ ((rs.flatMap Result.bytes).flatMap crlf).length := by
  induction rs with
  | nil => exact le_rfl
  | cons r rs ih =>
      have hr := text_length_le r
      simp only [List.flatMap_cons, List.flatMap_append, List.length_append]
      omega

/-- A read of one byte is missing, and the rest cannot make up for it: no read
passes on more than it brought. -/
theorem text_length_lt {r : Result} (h : r.bytes.length = 1) :
    (r.text.flatMap crlf).length < (r.bytes.flatMap crlf).length := by
  obtain ⟨b, hb⟩ := List.length_eq_one_iff.mp h
  have htext : r.text = [] := if_pos (by omega)
  have hpos := length_crlf_pos b
  rw [htext, hb, List.flatMap_singleton]
  exact hpos

theorem text_of_length_ne_one {r : Result} (h : r.bytes.length ≠ 1) : r.text = r.bytes := by
  unfold Result.text
  split
  · next hlt => exact (List.length_eq_zero_iff.mp (by omega)).symm
  · rfl

/-- The texts are all that was read if and only if no read was of one byte. By
lengths, so that nothing has to be known of the bytes. -/
theorem texts_eq_iff (rs : List Result) :
    (rs.flatMap Result.text).flatMap crlf = (rs.flatMap Result.bytes).flatMap crlf
      ↔ ∀ r ∈ rs, r.bytes.length ≠ 1 := by
  constructor
  · intro h r hr hone
    obtain ⟨as, bs, rfl⟩ := List.append_of_mem hr
    -- the others cannot make up for it
    have has := texts_length_le as
    have hbs := texts_length_le bs
    have hlt := text_length_lt hone
    have hlen := congrArg List.length h
    simp only [List.flatMap_append, List.flatMap_cons, List.length_append] at hlen
    omega
  · intro h
    have htexts : rs.flatMap Result.text = rs.flatMap Result.bytes :=
      List.flatMap_congr fun r hr => text_of_length_ne_one (h r hr)
    rw [htexts]

/-- **Reads of more than one byte are text**, with every CR or LF replaced by CR
LF, in every run; a read of one byte passes nothing on. So what is passed on is
what was typed if and only if no read was of one byte, and is then the same for
any two divisions of it. -/
theorem reads_passed_on (term : List UInt8) (signed : Bool) (a b : Typing) :
    a.stdin = a.reads term signed ++ (a.final term signed).stdin
      ∧ (a.final term signed).passed = ((a.reads term signed).flatMap Result.text).flatMap crlf
      ∧ ((a.final term signed).passed = (a.typed term signed).flatMap crlf
        ↔ ∀ r ∈ a.reads term signed, r.bytes.length ≠ 1)
      ∧ (a.typed term signed = b.typed term signed →
        (∀ r ∈ a.reads term signed, r.bytes.length ≠ 1) →
        (∀ r ∈ b.reads term signed, r.bytes.length ≠ 1) →
        (a.final term signed).passed = (b.final term signed).passed) := by
  obtain ⟨hsplit, hpassed⟩ := a.reads_spec term signed
  obtain ⟨_, hpassed'⟩ := b.reads_spec term signed
  refine ⟨hsplit, hpassed, ?_, ?_⟩
  · rw [hpassed]
    exact texts_eq_iff _
  · intro htyped hlong hlong'
    rw [hpassed, hpassed', (texts_eq_iff _).mpr hlong, (texts_eq_iff _).mpr hlong']
    exact congrArg (·.flatMap crlf) htyped

/-! Two divisions of one line, and one that falls apart into keys. -/

instance (r : Result) : Decidable (Keyless r) := inferInstanceAs (Decidable (_ ∧ _))

/-- Nothing happens but these reads. -/
def Typing.only (stdin : List Result) (keyless : ∀ r ∈ stdin, Keyless r) : Typing where
  shown := []
  past := []
  str1 := .fill 30 0
  buffer := .fill 512 0
  buffer1 := .fill 512 0
  stdin := stdin
  socket := []
  polls := List.replicate stdin.length (.ready true false [] [])
  keyless := keyless

/-- `ab`, newline, `cd`, cut behind the newline. -/
def cut_behind : Typing :=
  .only [.data ⟨ascii "ab\n", by decide, by decide⟩, .data ⟨ascii "cd", by decide, by decide⟩]
    (by decide)

/-- The same, cut before it. -/
def cut_before : Typing :=
  .only [.data ⟨ascii "ab", by decide, by decide⟩, .data ⟨ascii "\ncd", by decide, by decide⟩]
    (by decide)

/-- `ab` in one read. -/
def typed_at_once : Typing := .only [.data ⟨ascii "ab", by decide, by decide⟩] (by decide)

/-- `ab` in two. -/
def typed_apart : Typing := .only [keystroke (chr 'a'), keystroke (chr 'b')] (by decide)

/-- A line cut behind its LF and cut before it, in reads of more than one
byte. -/
theorem reads_passed_on_cut :
    (cut_behind.final [] true).passed = ascii "ab\r\ncd"
      ∧ (cut_behind.final [] true).passed = (cut_before.final [] true).passed :=
  ⟨by decide, (reads_passed_on [] true cut_behind cut_before).2.2.2 (by decide) (by decide)
    (by decide)⟩

/-- The same two bytes are passed on when they come in one read, and are two
keys the menu does not know when they come in two. -/
theorem divisions_differ :
    typed_at_once.typed [] true = ascii "ab" ∧ typed_apart.typed [] true = ascii "ab"
      ∧ (typed_at_once.final [] true).stdin = [] ∧ (typed_apart.final [] true).stdin = []
      ∧ (typed_at_once.final [] true).passed = ascii "ab"
      ∧ (typed_apart.final [] true).passed = [] := by
  refine ⟨?_, ?_, ?_, ?_, ?_, ?_⟩ <;> decide

end AutoMag.Client
