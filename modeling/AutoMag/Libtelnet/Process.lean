/-
`Libtelnet/Process.lean` -- the byte parser of `libtelnet.c` and its two ends,
`telnet_recv` and `telnet_send`.

`_process` is a `switch` on nine states inside a loop over the block, with two
locals that live for one call only: `i` and `start`, the first byte of the data
run not passed on yet. What one byte does is `process_byte`, which answers with
the new tracker, the events raised, and what happens to `start`; the loop adds
the `DATA` events, which are the only place where the cut of the stream into
blocks shows.
-/
import AutoMag.Libtelnet.Negotiate

set_option autoImplicit false

namespace AutoMag.Libtelnet

/-! ## Subnegotiations -/

/-- The inner `while` of `_environ_telnet`: bytes up to a marker, with `ESC`
taking the byte after it literally. Returns the text and the rest. -/
def environ_text (marker : UInt8 → Bool) : List UInt8 → List UInt8 × List UInt8
  | [] => ([], [])
  | [c] => if marker c then ([], [c]) else ([c], [])
  | c :: d :: rest =>
      if marker c then ([], c :: d :: rest)
      else if c = TELNET_ENVIRON_ESC then
        let r := environ_text marker rest
        (d :: r.1, r.2)
      else
        let r := environ_text marker (d :: rest)
        (c :: r.1, r.2)

/-- The counting loop: entries start at an unescaped VAR or USERVAR. -/
def environ_count : List UInt8 → ℕ
  | [] => 0
  | [c] => if c = TELNET_ENVIRON_VAR ∨ c = TELNET_ENVIRON_USERVAR then 1 else 0
  | c :: d :: rest =>
      if c = TELNET_ENVIRON_VAR ∨ c = TELNET_ENVIRON_USERVAR then environ_count (d :: rest) + 1
      else if c = TELNET_ENVIRON_ESC then environ_count rest
      else environ_count (d :: rest)

/-- The parsing loop, `count` entries from `c` on. -/
def environ_values : ℕ → List UInt8 → List Environ
  | 0, _ => []
  | _ + 1, [] => []
  | count + 1, type :: c =>
      let name := environ_text (fun b => b = TELNET_ENVIRON_VAR ∨ b = TELNET_ENVIRON_VALUE
        ∨ b = TELNET_ENVIRON_USERVAR) c
      match name.2 with
      | [] => ⟨type, name.1, []⟩ :: environ_values count []
      | b :: c' =>
          if b = TELNET_ENVIRON_VALUE then
            let value := environ_text (fun b => b = TELNET_ENVIRON_VAR
              ∨ b = TELNET_ENVIRON_USERVAR) c'
            ⟨type, name.1, value.1⟩ :: environ_values count value.2
          else ⟨type, name.1, []⟩ :: environ_values count (b :: c')

/-- `_environ_telnet`: the events and whether it returned non-zero. It returns 1
after an ENVIRON event, which the caller takes for "compression started". -/
def environ_telnet (type : UInt8) (buffer : List UInt8) : List Event × Bool :=
  match buffer with
  | [] => ([], false)
  | cmd :: args =>
      if cmd ≠ TELNET_ENVIRON_SEND ∧ cmd ≠ TELNET_ENVIRON_IS ∧ cmd ≠ TELNET_ENVIRON_INFO then
        ([.WARNING ("telopt " ++ toString type ++ " subneg has invalid command")], false)
      else match args with
        -- a command without any variable
        | [] => ([.ENVIRON cmd []], true)
        | kind :: _ =>
            if kind ≠ TELNET_ENVIRON_VAR ∧ kind ≠ TELNET_ENVIRON_USERVAR then
              ([.WARNING ("telopt " ++ toString type ++ " subneg missing variable type")], false)
            else if args.getLast? = some TELNET_ENVIRON_ESC then
              ([.WARNING ("telopt " ++ toString type ++ " subneg ends with ESC")], false)
            else ([.ENVIRON cmd (environ_values (environ_count args) args)], true)

/-- The parsing loop of `_mssp_telnet` from `c` on; `fuel` bounds the passes
(each takes at least one byte). A type byte at the very end starts no entry. -/
def mssp_values (fuel : ℕ) (next_type : UInt8) (var : Option (List UInt8))
    (values : List Environ) (c : List UInt8) : Option (List Environ) :=
  match fuel, c with
  | 0, _ => some values
  | _, [] => some values
  | fuel + 1, c =>
      -- `last` runs to the next type byte, or to the end
      let last := c.takeWhile (fun b => b ≠ TELNET_MSSP_VAR ∧ b ≠ TELNET_MSSP_VAL)
      let rest := c.drop last.length
      if next_type = TELNET_MSSP_VAR then
        mssp_values fuel (rest.headD 0) (some last) values rest.tail
      else match var with
        | some name =>
            if next_type = TELNET_MSSP_VAL then
              mssp_values fuel (rest.headD 0) var (values ++ [⟨0, name, last⟩]) rest.tail
            else none
        | none => none

/-- `_mssp_telnet`; it always returns 0. -/
def mssp_telnet (buffer : List UInt8) : List Event :=
  match buffer with
  | [] => []
  | type :: c =>
      if type ≠ TELNET_MSSP_VAR then [.WARNING "MSSP subnegotiation has invalid data"]
      else match mssp_values c.length type none [] c with
        | some values => [.MSSP values (buffer.count TELNET_MSSP_VAL)]
        | none => [.WARNING "invalid MSSP subnegotiation data"]

/-- The NUL-ended strings of a ZMP frame. -/
def zmp_args : List UInt8 → List (List UInt8)
  | [] => []
  | b :: rest =>
      if b = 0 then [] :: zmp_args rest
      else match zmp_args rest with
        | [] => [[b]]
        | arg :: args => (b :: arg) :: args

/-- `_zmp_telnet`; it always returns 0. -/
def zmp_telnet (buffer : List UInt8) : List Event :=
  if buffer.getLast? = some 0 then [.ZMP (zmp_args buffer)]
  else [.WARNING "incomplete ZMP frame"]

/-- `_ttype_telnet`; it always returns 0. -/
def ttype_telnet (buffer : List UInt8) : List Event :=
  match buffer with
  | [] => [.WARNING "incomplete TERMINAL-TYPE request"]
  | cmd :: name =>
      if cmd ≠ TELNET_TTYPE_IS ∧ cmd ≠ TELNET_TTYPE_SEND then
        [.WARNING "TERMINAL-TYPE request has invalid type"]
      else if cmd = TELNET_TTYPE_IS then [.TTYPE TELNET_TTYPE_IS name]
      else [.TTYPE TELNET_TTYPE_SEND []]

/-- `_subnegotiate`: the events, and whether it returned non-zero. -/
def subnegotiate (t : Telnet) : List Event × Bool :=
  let r : List Event × Bool :=
    if t.sb_telopt = TELNET_TELOPT_ZMP then (zmp_telnet t.buffer, false)
    else if t.sb_telopt = TELNET_TELOPT_TTYPE then (ttype_telnet t.buffer, false)
    else if t.sb_telopt = TELNET_TELOPT_ENVIRON ∨ t.sb_telopt = TELNET_TELOPT_NEW_ENVIRON then
      environ_telnet t.sb_telopt t.buffer
    else if t.sb_telopt = TELNET_TELOPT_MSSP then (mssp_telnet t.buffer, false)
    else ([], false)
  (.SUBNEGOTIATION t.sb_telopt t.buffer :: r.1, r.2)

/-! ## `_buffer_byte` -/

/-- `_buffer_sizes`. -/
def buffer_sizes : List ℕ := [0, 512, 2048, 8192, 16384]

/-- `_buffer_byte`: the tracker, the events, and whether it returned
`TELNET_EOK`. -/
def buffer_byte (t : Telnet) (byte : UInt8) : Telnet × List Event × Bool :=
  if t.buffer.length = t.buffer_size then
    -- full: the next size of the table, if there is one
    let i := buffer_sizes.findIdx (· = t.buffer_size)
    if buffer_sizes.length - 1 ≤ i then
      (t, [.WARNING "subnegotiation buffer size limit reached"], false)
    else
      ({ t with buffer_size := buffer_sizes.getD (i + 1) 0, buffer := t.buffer ++ [byte] },
        [], true)
  else ({ t with buffer := t.buffer ++ [byte] }, [], true)

/-! ## `_process` -/

/-- What one pass of the loop of `_process` does. `flush`: pass through all
pending bytes first. `start`: `some k` when `start` becomes `i + k`. `again`:
the rest of the block goes through `telnet_recv` and the function returns. -/
structure Pass where
  telnet : Telnet
  events : List Event := []
  flush : Bool := false
  start : Option ℕ := none
  again : Bool := false

/-- `case TELNET_STATE_IAC` of the loop. -/
def iac_byte (t : Telnet) (byte : UInt8) : Pass :=
  if byte = TELNET_SB then { telnet := { t with state := .SB } }
  else if byte = TELNET_WILL then { telnet := { t with state := .WILL } }
  else if byte = TELNET_WONT then { telnet := { t with state := .WONT } }
  else if byte = TELNET_DO then { telnet := { t with state := .DO } }
  else if byte = TELNET_DONT then { telnet := { t with state := .DONT } }
  else if byte = TELNET_IAC then
    { telnet := { t with state := .DATA }, events := [.DATA [byte]], start := some 1 }
  -- some other command
  else { telnet := { t with state := .DATA }, events := [.IAC byte], start := some 1 }

/-- `case TELNET_STATE_SB_DATA` of the loop. -/
def sb_data_byte (t : Telnet) (byte : UInt8) : Pass :=
  if byte = TELNET_IAC then { telnet := { t with state := .SB_DATA_IAC } }
  else if t.sb_telopt = TELNET_TELOPT_COMPRESS ∧ byte = TELNET_WILL then
    -- MCCP version 1, captured and discarded: the byte after this one goes too
    { telnet := { t with state := .DATA }, start := some 2 }
  else
    let r := buffer_byte t byte
    if r.2.2 then { telnet := r.1, events := r.2.1 }
    -- no room: the rest of the subnegotiation is taken for data
    else { telnet := { r.1 with state := .DATA }, events := r.2.1, start := some 1 }

/-- `case TELNET_STATE_SB_DATA_IAC` of the loop. -/
def sb_data_iac_byte (t : Telnet) (byte : UInt8) : Pass :=
  if byte = TELNET_SE then
    let r := subnegotiate t
    { telnet := { t with state := .DATA }, events := r.1, start := some 1, again := r.2 }
  else if byte = TELNET_IAC then
    -- an escaped IAC is a byte of the subnegotiation
    let r := buffer_byte t TELNET_IAC
    if r.2.2 then { telnet := { r.1 with state := .SB_DATA }, events := r.2.1 }
    else { telnet := { r.1 with state := .DATA }, events := r.2.1, start := some 1 }
  else
    -- protocol error: attempt to process the content, then evaluate the byte as an IAC code
    let warning : Event :=
      .WARNING ("unexpected byte after IAC inside SB: " ++ toString byte)
    let r := subnegotiate t
    if r.2 then
      { telnet := { t with state := .IAC }, events := warning :: r.1, start := some 1,
        again := true }
    else
      -- the recursive call `_process(telnet, &byte, 1)` in the IAC state
      let p := iac_byte { t with state := .IAC } byte
      { telnet := p.telnet, events := warning :: (r.1 ++ p.events), start := some 1 }

/-- The body of the loop of `_process`, one case for each state. -/
def process_byte (t : Telnet) (byte : UInt8) : Pass :=
  match t.state with
  | .DATA =>
      if byte = TELNET_IAC then { telnet := { t with state := .IAC }, flush := true }
      else { telnet := t }
  | .IAC => iac_byte t byte
  | .WILL | .WONT | .DO | .DONT =>
      let r := negotiate t byte
      { telnet := { r.1 with state := .DATA }, events := r.2, start := some 1 }
  | .SB =>
      { telnet := { t with sb_telopt := byte, buffer := [], state := .SB_DATA } }
  | .SB_DATA => sb_data_byte t byte
  | .SB_DATA_IAC => sb_data_iac_byte t byte

/-- The `DATA` event for `buffer[start..i)`, when `i != start`. `start` can be
one past `i` (after MCCP version 1), and then the `size_t` difference
`i - start` wraps around to its largest value: the event begins at `start` and
has no end. -/
def data_event (buffer : List UInt8) (start i : ℕ) : List Event :=
  if i = start then []
  else if start < i then [.DATA ((buffer.drop start).take (i - start))]
  else [.OVERREAD (buffer.drop start)]

/-- The loop of `_process` with its locals; the list it recurses on is
`buffer[i..size)`. -/
def process_loop (buffer : List UInt8) : List UInt8 → ℕ → ℕ → Telnet → Telnet × List Event
  | [], i, start, t => (t, if t.state = .DATA then data_event buffer start i else [])
  | byte :: rest, i, start, t =>
      let p := process_byte t byte
      let events := (if p.flush then data_event buffer start i else []) ++ p.events
      let r :=
        -- `telnet_recv(telnet, &buffer[start], size - start)`, with `i` and `start` of its own
        if p.again then process_loop rest rest 0 0 p.telnet
        else process_loop buffer rest (i + 1) ((p.start.map (i + ·)).getD start) p.telnet
      (r.1, events ++ r.2)

/-- `telnet_recv` without zlib: `_process` over the block. -/
def telnet_recv (t : Telnet) (buffer : List UInt8) : Telnet × List Event :=
  process_loop buffer buffer 0 0 t

/-! ## Sending -/

/-- The loop of `telnet_send`; `pending` is `buffer[l..i)`. -/
def telnet_send_loop (pending : List UInt8) : List UInt8 → List Event
  | [] => if pending = [] then [] else [.SEND pending]
  | b :: rest =>
      if b = TELNET_IAC then
        -- dump prior text if any, then the escape (`telnet_iac`)
        (if pending = [] then [] else [.SEND pending])
          ++ .SEND [TELNET_IAC, TELNET_IAC] :: telnet_send_loop [] rest
      else telnet_send_loop (pending ++ [b]) rest

/-- `telnet_send`: non-command data, IAC bytes escaped. -/
def telnet_send (buffer : List UInt8) : List Event := telnet_send_loop [] buffer

/-- `telnet_ttype_is`. -/
def telnet_ttype_is (ttype : List UInt8) : List Event :=
  [.SEND [TELNET_IAC, TELNET_SB, TELNET_TELOPT_TTYPE, TELNET_TTYPE_IS], .SEND ttype,
    .SEND [TELNET_IAC, TELNET_SE]]

end AutoMag.Libtelnet
