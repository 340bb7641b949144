/-
`Client/Handler.lean` -- the parts `telnet-projekat1.c` shares with the plain
client it was made from: the option table, `_event_handler`, `_input`.

Whatever the program does that can be seen from outside, and every result a
system call hands it, is an `Act`; the state keeps them in order in `trace`, and
the results are about that trace. `send()` is taken to deliver what it is given
(the retry loop `_send` around it hides partial writes), and `getenv("TERM")` is
the byte string `term`.

Reads outside an array, and of bytes never written, give arbitrary bytes: they
come in as parameters, never as a fault.
-/
import AutoMag.Lib.CMemory
import AutoMag.Libtelnet.Stream

set_option autoImplicit false

namespace AutoMag.Client

open AutoMag.Libtelnet

/-! ## What the program and its surroundings exchange -/

/-- The bytes of a C string literal. -/
def ascii (s : String) : List UInt8 := s.toList.map fun c => c.toNat.toUInt8

/-- A successful `read` or `recv` into a 512-byte array: 1 to 512 bytes. -/
structure Chunk where
  bytes : List UInt8
  nonempty : bytes ≠ []
  le : bytes.length ≤ 512
deriving DecidableEq

/-- What `read` or `recv` returned: a positive count, 0, or -1 with `errno`. -/
inductive Result where
  | data (c : Chunk)
  | eof
  | error (errno : String)
deriving DecidableEq

/-- The bytes a result put into the array. -/
def Result.bytes : Result → List UInt8
  | .data c => c.bytes
  | _ => []

/-- The three arguments of `lcdScreen`. -/
structure Reading where
  speed : ℕ
  fuel : ℕ
  temperature : ℕ
deriving DecidableEq, Repr

/-- On whose behalf bytes are sent: a reply the telnet layer makes, the stdin
branch of the poll loop, or the CAN message handler in its socket branch. -/
inductive Origin where
  | reply | stdin | can
deriving DecidableEq, Repr

/-- One thing the program does, or is told by a system call. -/
inductive Act where
  | read (r : Result)
  | scanf (v : Option ℤ)
  | recv (r : Result)
  | lcdScreen (r : Reading)
  | input (who : Origin) (text : List UInt8) (size : ℤ)
  | telnet_send (who : Origin) (bytes : List UInt8)
  | send (who : Origin) (bytes : List UInt8)
  | printf (text : List UInt8)
  -- a `printf` that begins with these bytes and ends at the first NUL, in the block or behind it
  | printf_on (bytes : List UInt8)
  | fprintf (text : String)
  | telnet_free
  | close
deriving DecidableEq

/-- `blocked`: waiting in a `read`, `scanf` or `recv` that has no result yet.
`overrun`: in the loop of `_input` past the end of the array. -/
inductive Status where
  | running
  | blocked
  | exited (code : ℕ)
  | overrun
deriving DecidableEq, Repr

/-- The statics `telnet` and `do_echo`, and the world. -/
structure Session where
  telnet : Telnet
  do_echo : Bool
  trace : List Act
  status : Status
deriving DecidableEq

/-- Note acts at the end of the trace. -/
def Session.log (c : Session) (acts : List Act) : Session := { c with trace := c.trace ++ acts }

@[simp] theorem Session.log_telnet (c : Session) (acts : List Act) :
    (c.log acts).telnet = c.telnet := rfl

@[simp] theorem Session.log_do_echo (c : Session) (acts : List Act) :
    (c.log acts).do_echo = c.do_echo := rfl

@[simp] theorem Session.log_trace (c : Session) (acts : List Act) :
    (c.log acts).trace = c.trace ++ acts := rfl

@[simp] theorem Session.log_status (c : Session) (acts : List Act) :
    (c.log acts).status = c.status := rfl

@[simp] theorem Session.log_log (c : Session) (as bs : List Act) :
    (c.log as).log bs = c.log (as ++ bs) := by
  simp only [Session.log, List.append_assoc]

@[simp] theorem Session.log_nil (c : Session) : c.log [] = c := by
  simp only [Session.log, List.append_nil]

/-! ## `telopts`, `_event_handler` -/

/-- The option table of the client. -/
def telopts : List Telopt :=
  [⟨TELNET_TELOPT_ECHO, TELNET_WONT, TELNET_DO⟩,
   ⟨TELNET_TELOPT_TTYPE, TELNET_WILL, TELNET_DONT⟩,
   ⟨TELNET_TELOPT_COMPRESS2, TELNET_WONT, TELNET_DO⟩,
   ⟨TELNET_TELOPT_MSSP, TELNET_WONT, TELNET_DO⟩]

/-- The client after `telnet_init`, with echoing on. -/
def Session.start : Session where
  telnet := telnet_init telopts 0
  do_echo := true
  trace := []
  status := .running

/-- `_send`: nothing is written for an empty buffer. -/
def send_acts (who : Origin) (bytes : List UInt8) : List Act :=
  if bytes = [] then [] else [.send who bytes]

/-- What the handler writes to the socket for an event: the bytes of a `SEND`,
and for a terminal-type request the three `SEND`s of `telnet_ttype_is`. -/
def reply_acts (term : List UInt8) (who : Origin) : Event → List Act
  | .SEND bytes => send_acts who bytes
  | .TTYPE cmd _ =>
      if cmd = TELNET_TTYPE_SEND then
        (telnet_ttype_is term).flatMap fun
          | .SEND bytes => send_acts who bytes
          | _ => []
      else []
  | _ => []

/-- `_event_handler`. After `exit` there is no process to handle anything. -/
def event_handler (term : List UInt8) (who : Origin) (c : Session) (ev : Event) : Session :=
  if c.status ≠ .running then c
  else match ev with
    -- data received: `printf("%.*s", ...)` stops at a NUL
    | .DATA bytes => c.log [.printf (bytes.takeWhile (· ≠ 0))]
    -- the size is -1 as an `int`, and no limit: it prints on to the next NUL
    | .OVERREAD bytes => c.log [.printf_on bytes]
    | .SEND _ => c.log (reply_acts term who ev)
    -- we'll agree to turn off our echo if server wants us to stop
    | .WILL telopt => if telopt = TELNET_TELOPT_ECHO then { c with do_echo := false } else c
    | .WONT telopt => if telopt = TELNET_TELOPT_ECHO then { c with do_echo := true } else c
    -- respond with our terminal type, if requested
    | .TTYPE _ _ => c.log (reply_acts term who ev)
    | .ERROR msg => { c.log [.fprintf ("ERROR: " ++ msg ++ "\n")] with status := .exited 1 }
    | _ => c

/-- The handler over the events of one library call. -/
def handle (term : List UInt8) (who : Origin) (c : Session) (evs : List Event) : Session :=
  evs.foldl (event_handler term who) c

/-- `telnet_recv(telnet, buffer, rs)` with the client's handler. -/
def client_recv (term : List UInt8) (c : Session) (bytes : List UInt8) : Session :=
  let r := telnet_recv c.telnet bytes
  handle term .reply { c with telnet := r.1 } r.2

/-- `telnet_send(telnet, buffer, size)` with the client's handler. -/
def client_send (term : List UInt8) (who : Origin) (c : Session) (bytes : List UInt8) : Session :=
  handle term who (c.log [.telnet_send who bytes]) (telnet_send bytes)

/-! ## `_input` -/

abbrev CR : UInt8 := 13
abbrev LF : UInt8 := 10

/-- What `_input` passes to `telnet_send` for one character: if we got a CR or
LF, replace with CRLF. -/
def crlf (b : UInt8) : List UInt8 := if b = CR ∨ b = LF then [CR, LF] else [b]

/-- The loop of `_input`, one character at a time. -/
def input_loop (term : List UInt8) (who : Origin) : Session → List UInt8 → Session
  | c, [] => c
  | c, b :: bs =>
      -- the echo is the user's, on stdout; the server gets the same bytes below
      let c := if c.do_echo then c.log [.printf (crlf b)] else c
      input_loop term who (client_send term who c (crlf b)) bs

/-- `_input(buffer, size)`, with `buffer` the bytes of the array from the
pointer on. The loop test is `i != size`: with a negative `size` it passes the
end of the array. -/
def input (term : List UInt8) (who : Origin) (c : Session) (buffer : List UInt8) (size : ℤ) :
    Session :=
  if size < 0 then
    -- what the loop sends from behind the array is not followed
    { input_loop term who (c.log [.input who buffer size]) buffer with status := .overrun }
  else
    input_loop term who (c.log [.input who (buffer.take size.toNat) size])
      (buffer.take size.toNat)

/-! ## What they do, as one record update

`event_handler`, `client_recv` and `_input` each leave the session as it was but
for the fields named here; every result starts from these four equations. -/

/-- What the handler does to `do_echo`. -/
def echo_after (do_echo : Bool) : Event → Bool
  | .WILL telopt => if telopt = TELNET_TELOPT_ECHO then false else do_echo
  | .WONT telopt => if telopt = TELNET_TELOPT_ECHO then true else do_echo
  | _ => do_echo

/-- What the handler notes for an event other than `ERROR`. -/
def event_acts (term : List UInt8) (who : Origin) : Event → List Act
  | .DATA bytes => [.printf (bytes.takeWhile (· ≠ 0))]
  | .OVERREAD bytes => [.printf_on bytes]
  | ev => reply_acts term who ev

/-- The handler on an event that is no `ERROR`: it adds the acts of the event to
the trace and may switch the echo, and does nothing else. All later proofs use
this record update and never the cases of the handler. -/
theorem event_handler_spec (term : List UInt8) (who : Origin) (c : Session) (ev : Event)
    (hc : c.status = .running) (hev : ev.isMild) :
    event_handler term who c ev
      = { c.log (event_acts term who ev) with do_echo := echo_after c.do_echo ev } := by
  unfold event_handler
  rw [if_neg (by simp [hc])]
  cases ev with
  | ERROR msg => cases hev
  | WILL telopt =>
      simp only [echo_after, event_acts, reply_acts, Session.log_nil]
      split <;> rfl
  | WONT telopt =>
      simp only [echo_after, event_acts, reply_acts, Session.log_nil]
      split <;> rfl
  | _ => simp [echo_after, event_acts, reply_acts, Session.log]

/-- The handler over a list of events without `ERROR`, as one record update. The
induction is on the events; `do_echo` is threaded through them, and the acts do
not depend on it. -/
theorem handle_spec (term : List UInt8) (who : Origin) (evs : List Event) : ∀ c : Session,
    c.status = .running → (∀ ev ∈ evs, ev.isMild) →
    handle term who c evs
      = { c.log (evs.flatMap (event_acts term who)) with
          do_echo := evs.foldl echo_after c.do_echo } := by
  induction evs with
  | nil => intro c _ _; simp [handle, Session.log]
  | cons ev evs ih =>
      intro c hc hev
      -- one event does not stop the process, so the handler goes on to the next
      have h1 := event_handler_spec term who c ev hc (hev ev (List.mem_cons_self ..))
      have h2 := ih (event_handler term who c ev) (by rw [h1]; exact hc)
        (fun e he => hev e (List.mem_cons_of_mem _ he))
      simp only [handle, List.foldl_cons] at h2 ⊢
      rw [h2, h1]
      simp [Session.log]

/-- `telnet_recv` with the client's handler. The hypothesis of `handle_spec` is
met, since no block makes the library raise `ERROR`. -/
theorem client_recv_spec (term : List UInt8) (c : Session) (bytes : List UInt8)
    (hc : c.status = .running) :
    client_recv term c bytes
      = { telnet := (telnet_recv c.telnet bytes).1
          do_echo := (telnet_recv c.telnet bytes).2.foldl echo_after c.do_echo
          trace := c.trace ++ (telnet_recv c.telnet bytes).2.flatMap (event_acts term .reply)
          status := .running } := by
  unfold client_recv
  simp only
  rw [handle_spec term .reply _ _ (by exact hc) (telnet_recv_mild c.telnet bytes)]
  simp [Session.log, hc]

/-- IAC bytes doubled. -/
def escape (bytes : List UInt8) : List UInt8 :=
  bytes.flatMap fun b => if b = TELNET_IAC then [TELNET_IAC, TELNET_IAC] else [b]

/-- What one character of `_input` notes. -/
def char_acts (who : Origin) (do_echo : Bool) (b : UInt8) : List Act :=
  (if do_echo then [.printf (crlf b)] else [])
    ++ [.telnet_send who (crlf b), .send who (escape (crlf b))]

/-- One character is one `SEND`, the two bytes of a line end too. -/
theorem telnet_send_crlf (b : UInt8) : telnet_send (crlf b) = [.SEND (escape (crlf b))] := by
  by_cases hb : b = CR ∨ b = LF
  · simp only [crlf, if_pos hb]
    decide
  · simp only [crlf, if_neg hb, telnet_send, telnet_send_loop, escape]
    split <;> simp_all

/-- The loop of `_input`: the acts of each character, in order. Typing does not
switch the echo, so all of them see the same `do_echo`. -/
theorem input_loop_spec (term : List UInt8) (who : Origin) (text : List UInt8) : ∀ c : Session,
    c.status = .running →
    input_loop term who c text = c.log (text.flatMap (char_acts who c.do_echo)) := by
  induction text with
  | nil => intro c _; simp [input_loop]
  | cons b text ih =>
      intro c hc
      have hsend : ∀ d : Session, d.status = .running → client_send term who d (crlf b)
          = d.log [.telnet_send who (crlf b), .send who (escape (crlf b))] := by
        intro d hd
        -- `_send` writes nothing for an empty buffer, so that this one is not empty matters
        have hne : escape (crlf b) ≠ [] := by
          simp only [escape, crlf]
          split <;> simp [List.flatMap_cons] <;> split <;> simp
        unfold client_send
        rw [telnet_send_crlf, handle_spec term who _ _ (by exact hd) (by simp [Event.isMild])]
        simp [event_acts, reply_acts, send_acts, hne, echo_after, Session.log]
      simp only [input_loop]
      by_cases he : c.do_echo = true
      · rw [if_pos he, hsend (c.log _) hc, ih ((c.log _).log _) hc]
        simp [char_acts, he, Session.log]
      · rw [if_neg he, hsend c hc, ih (c.log _) hc]
        simp [char_acts, he, Session.log]

/-- `_input` with a size that is not negative. A size of -1, which a failed
`read` leaves, runs over the end of the array instead. -/
theorem input_spec (term : List UInt8) (who : Origin) (c : Session) (buffer : List UInt8) (n : ℕ)
    (hc : c.status = .running) :
    input term who c buffer n
      = c.log (.input who (buffer.take n) n ::
          (buffer.take n).flatMap (char_acts who c.do_echo)) := by
  unfold input
  rw [if_neg (by omega), Int.toNat_natCast, input_loop_spec term who _ _ (by exact hc)]
  simp [Session.log]

end AutoMag.Client
