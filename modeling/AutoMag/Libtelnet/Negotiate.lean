/-
`Libtelnet/Negotiate.lean` -- the state tracker of `libtelnet.c` and its RFC 1143
option negotiation.

The library is taken as it compiles without `HAVE_ZLIB`: the zlib box of
`telnet_t` and what is between the `#if`s are left out, here and in all that
follows. What is here is the rest of `telnet_t`, the events it raises, the option
table with its 8-bit size and the four-at-a-time growth, `_negotiate` with every
branch, and `telnet_negotiate`, with which an application asks: the client never
does, so most of the `WANT` branches are dead in it, but that is a theorem
(`Client/Options.lean`) and not a simplification made here.

The library calls the event handler inline. The handler of the client writes
nothing the library reads, so a function here returns the events it raises, in
order, and the handler is run over them afterwards; `Libtelnet/Inline.lean` has
the calls where they are, for handlers that do more. Allocation is taken not to
fail.
-/
import Mathlib.Data.List.Basic
import Mathlib.Tactic.Common

set_option autoImplicit false

namespace AutoMag.Libtelnet

/-! ## Protocol constants (`libtelnet.h`) -/

abbrev TELNET_IAC : UInt8 := 255
abbrev TELNET_DONT : UInt8 := 254
abbrev TELNET_DO : UInt8 := 253
abbrev TELNET_WONT : UInt8 := 252
abbrev TELNET_WILL : UInt8 := 251
abbrev TELNET_SB : UInt8 := 250
abbrev TELNET_SE : UInt8 := 240

abbrev TELNET_TELOPT_ECHO : UInt8 := 1
abbrev TELNET_TELOPT_TTYPE : UInt8 := 24
abbrev TELNET_TELOPT_ENVIRON : UInt8 := 36
abbrev TELNET_TELOPT_NEW_ENVIRON : UInt8 := 39
abbrev TELNET_TELOPT_MSSP : UInt8 := 70
abbrev TELNET_TELOPT_COMPRESS : UInt8 := 85
abbrev TELNET_TELOPT_COMPRESS2 : UInt8 := 86
abbrev TELNET_TELOPT_ZMP : UInt8 := 93

abbrev TELNET_TTYPE_IS : UInt8 := 0
abbrev TELNET_TTYPE_SEND : UInt8 := 1

abbrev TELNET_ENVIRON_IS : UInt8 := 0
abbrev TELNET_ENVIRON_SEND : UInt8 := 1
abbrev TELNET_ENVIRON_INFO : UInt8 := 2
abbrev TELNET_ENVIRON_VAR : UInt8 := 0
abbrev TELNET_ENVIRON_VALUE : UInt8 := 1
abbrev TELNET_ENVIRON_ESC : UInt8 := 2
abbrev TELNET_ENVIRON_USERVAR : UInt8 := 3

abbrev TELNET_MSSP_VAR : UInt8 := 1
abbrev TELNET_MSSP_VAL : UInt8 := 2

abbrev TELNET_FLAG_PROXY : UInt8 := 1

/-! ## Events -/

/-- `struct telnet_environ_t`: one variable of an ENVIRON or MSSP event. -/
structure Environ where
  type : UInt8
  var : List UInt8
  value : List UInt8
deriving DecidableEq, Repr

/-- `telnet_event_t`. `ERROR` is only ever raised by the zlib code, which is
left out here; the handlers have a branch for it all the same. -/
inductive Event where
  | DATA (bytes : List UInt8)
  -- `TELNET_EV_DATA` with a size that has wrapped around: the handler is to read `bytes`, up to
  -- the end of the block, and on from there
  | OVERREAD (bytes : List UInt8)
  | SEND (bytes : List UInt8)
  | IAC (cmd : UInt8)
  | WILL (telopt : UInt8)
  | WONT (telopt : UInt8)
  | DO (telopt : UInt8)
  | DONT (telopt : UInt8)
  | SUBNEGOTIATION (telopt : UInt8) (buffer : List UInt8)
  | ZMP (argv : List (List UInt8))
  | TTYPE (cmd : UInt8) (name : List UInt8)
  | ENVIRON (cmd : UInt8) (values : List Environ)
  | MSSP (values : List Environ) (size : ℕ)
  | WARNING (msg : String)
  | ERROR (msg : String)
deriving DecidableEq, Repr

/-! ## The state tracker -/

/-- `enum telnet_state_t`. -/
inductive State where
  | DATA | IAC | WILL | WONT | DO | DONT | SB | SB_DATA | SB_DATA_IAC
deriving DecidableEq, Repr

/-- `telnet_rfc1143_t`: an option and its two state nibbles. -/
structure Rfc1143 where
  telopt : UInt8
  state : UInt8
deriving DecidableEq, Repr

/-- `telnet_telopt_t`: what the application supports. The C table ends with the
entry whose `telopt` is `-1`; here the list ends. -/
structure Telopt where
  telopt : UInt8
  us : UInt8
  him : UInt8
deriving DecidableEq, Repr

/-- `telnet_t`. `buffer` holds the bytes written so far (`buffer_pos` is its
length; what lies past it is never read); `q` is the allocated table, of which
the loops look at the first `q_size` entries. -/
structure Telnet where
  telopts : List Telopt
  q : List Rfc1143 := []
  buffer : List UInt8 := []
  buffer_size : ℕ := 0
  state : State := .DATA
  flags : UInt8 := 0
  sb_telopt : UInt8 := 0
  q_size : UInt8 := 0
deriving DecidableEq, Repr

/-- `telnet_init`: everything zero but the arguments. -/
def telnet_init (telopts : List Telopt) (flags : UInt8) : Telnet :=
  { telopts := telopts, flags := flags }

/-! ## The RFC 1143 table -/

abbrev Q_NO : UInt8 := 0
abbrev Q_YES : UInt8 := 1
abbrev Q_WANTNO : UInt8 := 2
abbrev Q_WANTYES : UInt8 := 3
abbrev Q_WANTNO_OP : UInt8 := 4
abbrev Q_WANTYES_OP : UInt8 := 5

def Q_US (q : Rfc1143) : UInt8 := q.state &&& 0x0F

def Q_HIM (q : Rfc1143) : UInt8 := (q.state &&& 0xF0) >>> 4

def Q_MAKE (us him : UInt8) : UInt8 := us ||| (him <<< 4)

/-- `_check_telopt`: the first entry for the option decides. -/
def check_telopt (t : Telnet) (telopt : UInt8) (us : Bool) : Bool :=
  match t.telopts.find? (·.telopt = telopt) with
  | some e => if us then e.us = TELNET_WILL else e.him = TELNET_DO
  | none => false

/-- `_get_rfc1143`: the first entry for the option, or an empty one. -/
def get_rfc1143 (t : Telnet) (telopt : UInt8) : Rfc1143 :=
  ((t.q.take t.q_size.toNat).find? (·.telopt = telopt)).getD ⟨telopt, 0⟩

/-- `_set_rfc1143`. The table grows by four: the new entry, then three zeroed
ones, and `q_size` is an `unsigned char`. -/
def set_rfc1143 (t : Telnet) (telopt us him : UInt8) : Telnet :=
  match (t.q.take t.q_size.toNat).findIdx? (·.telopt = telopt) with
  -- the entry is there: only its state changes
  | some i => { t with q := t.q.modify i fun e => { e with state := Q_MAKE us him } }
  | none =>
      { t with
        q := t.q.take t.q_size.toNat ++ [⟨telopt, Q_MAKE us him⟩, ⟨0, 0⟩, ⟨0, 0⟩, ⟨0, 0⟩]
        q_size := t.q_size + 4 }

/-- `_send_negotiate`. -/
def send_negotiate (cmd telopt : UInt8) : Event := .SEND [TELNET_IAC, cmd, telopt]

/-! ## `_negotiate`

One function in the source, a `switch` on the verb and in each verb a `switch` on
the option's own half of the state. The four inner switches are named here; a `Q`
value they have no case for does nothing. -/

/-- Request to enable option on remote end or confirm DO. -/
def negotiate_will (t : Telnet) (telopt : UInt8) (q : Rfc1143) : Telnet × List Event :=
  if Q_HIM q = Q_NO then
    if check_telopt t telopt false then
      (set_rfc1143 t telopt (Q_US q) Q_YES, [send_negotiate TELNET_DO telopt, .WILL telopt])
    else (t, [send_negotiate TELNET_DONT telopt])
  else if Q_HIM q = Q_WANTNO then
    (set_rfc1143 t telopt (Q_US q) Q_NO, [.WONT telopt, .WARNING "DONT answered by WILL"])
  else if Q_HIM q = Q_WANTNO_OP then
    (set_rfc1143 t telopt (Q_US q) Q_YES, [.WILL telopt, .WARNING "DONT answered by WILL"])
  else if Q_HIM q = Q_WANTYES then
    (set_rfc1143 t telopt (Q_US q) Q_YES, [.WILL telopt])
  else if Q_HIM q = Q_WANTYES_OP then
    (set_rfc1143 t telopt (Q_US q) Q_WANTNO, [send_negotiate TELNET_DONT telopt, .WILL telopt])
  else (t, [])

/-- Request to disable option on remote end, confirm DONT, reject DO. -/
def negotiate_wont (t : Telnet) (telopt : UInt8) (q : Rfc1143) : Telnet × List Event :=
  if Q_HIM q = Q_YES then
    (set_rfc1143 t telopt (Q_US q) Q_NO, [send_negotiate TELNET_DONT telopt, .WONT telopt])
  else if Q_HIM q = Q_WANTNO then
    (set_rfc1143 t telopt (Q_US q) Q_NO, [.WONT telopt])
  -- the source raises DO here, where the other branches raise WONT
  else if Q_HIM q = Q_WANTNO_OP then
    (set_rfc1143 t telopt (Q_US q) Q_WANTYES, [.DO telopt])
  else if Q_HIM q = Q_WANTYES ∨ Q_HIM q = Q_WANTYES_OP then
    (set_rfc1143 t telopt (Q_US q) Q_NO, [])
  else (t, [])

/-- Request to enable option on local end or confirm WILL. -/
def negotiate_do (t : Telnet) (telopt : UInt8) (q : Rfc1143) : Telnet × List Event :=
  if Q_US q = Q_NO then
    if check_telopt t telopt true then
      (set_rfc1143 t telopt Q_YES (Q_HIM q), [send_negotiate TELNET_WILL telopt, .DO telopt])
    else (t, [send_negotiate TELNET_WONT telopt])
  else if Q_US q = Q_WANTNO then
    (set_rfc1143 t telopt Q_NO (Q_HIM q), [.DONT telopt, .WARNING "WONT answered by DO"])
  else if Q_US q = Q_WANTNO_OP then
    (set_rfc1143 t telopt Q_YES (Q_HIM q), [.DO telopt, .WARNING "WONT answered by DO"])
  else if Q_US q = Q_WANTYES then
    (set_rfc1143 t telopt Q_YES (Q_HIM q), [.DO telopt])
  else if Q_US q = Q_WANTYES_OP then
    (set_rfc1143 t telopt Q_WANTNO (Q_HIM q), [send_negotiate TELNET_WONT telopt, .DO telopt])
  else (t, [])

/-- Request to disable option on local end, confirm WONT, reject WILL. -/
def negotiate_dont (t : Telnet) (telopt : UInt8) (q : Rfc1143) : Telnet × List Event :=
  if Q_US q = Q_YES then
    (set_rfc1143 t telopt Q_NO (Q_HIM q), [send_negotiate TELNET_WONT telopt, .DONT telopt])
  -- the source raises WONT here, where the branch above raises DONT
  else if Q_US q = Q_WANTNO then
    (set_rfc1143 t telopt Q_NO (Q_HIM q), [.WONT telopt])
  else if Q_US q = Q_WANTNO_OP then
    (set_rfc1143 t telopt Q_WANTYES (Q_HIM q), [send_negotiate TELNET_WILL telopt, .WILL telopt])
  else if Q_US q = Q_WANTYES ∨ Q_US q = Q_WANTYES_OP then
    (set_rfc1143 t telopt Q_NO (Q_HIM q), [])
  else (t, [])

/-- `_negotiate`: the verb is the parser's state, the option the byte after
it. -/
def negotiate (t : Telnet) (telopt : UInt8) : Telnet × List Event :=
  if t.flags &&& TELNET_FLAG_PROXY ≠ 0 then
    -- in PROXY mode, just pass it thru and do nothing
    match t.state with
    | .WILL => (t, [.WILL telopt])
    | .WONT => (t, [.WONT telopt])
    | .DO => (t, [.DO telopt])
    | .DONT => (t, [.DONT telopt])
    | _ => (t, [])
  else
    match t.state with
    | .WILL => negotiate_will t telopt (get_rfc1143 t telopt)
    | .WONT => negotiate_wont t telopt (get_rfc1143 t telopt)
    | .DO => negotiate_do t telopt (get_rfc1143 t telopt)
    | .DONT => negotiate_dont t telopt (get_rfc1143 t telopt)
    | _ => (t, [])

/-! ## `telnet_negotiate` -/

/-- `telnet_negotiate`: the application asks for an option, or for its end. A
verb about the local end reads and writes the `us` half of the state, one about
the remote end the `him` half; any other command does nothing. -/
def telnet_negotiate (t : Telnet) (cmd telopt : UInt8) : Telnet × List Event :=
  -- if we're in proxy mode, just send it now
  if t.flags &&& TELNET_FLAG_PROXY ≠ 0 then (t, [send_negotiate cmd telopt])
  else
    let q := get_rfc1143 t telopt
    if cmd = TELNET_WILL then
      if Q_US q = Q_NO then
        (set_rfc1143 t telopt Q_WANTYES (Q_HIM q), [send_negotiate TELNET_WILL telopt])
      else if Q_US q = Q_WANTNO then (set_rfc1143 t telopt Q_WANTNO_OP (Q_HIM q), [])
      else if Q_US q = Q_WANTYES_OP then (set_rfc1143 t telopt Q_WANTYES (Q_HIM q), [])
      else (t, [])
    else if cmd = TELNET_WONT then
      if Q_US q = Q_YES then
        (set_rfc1143 t telopt Q_WANTNO (Q_HIM q), [send_negotiate TELNET_WONT telopt])
      else if Q_US q = Q_WANTYES then (set_rfc1143 t telopt Q_WANTYES_OP (Q_HIM q), [])
      else if Q_US q = Q_WANTNO_OP then (set_rfc1143 t telopt Q_WANTNO (Q_HIM q), [])
      else (t, [])
    else if cmd = TELNET_DO then
      if Q_HIM q = Q_NO then
        (set_rfc1143 t telopt (Q_US q) Q_WANTYES, [send_negotiate TELNET_DO telopt])
      else if Q_HIM q = Q_WANTNO then (set_rfc1143 t telopt (Q_US q) Q_WANTNO_OP, [])
      else if Q_HIM q = Q_WANTYES_OP then (set_rfc1143 t telopt (Q_US q) Q_WANTYES, [])
      else (t, [])
    else if cmd = TELNET_DONT then
      if Q_HIM q = Q_YES then
        (set_rfc1143 t telopt (Q_US q) Q_WANTNO, [send_negotiate TELNET_DONT telopt])
      else if Q_HIM q = Q_WANTYES then (set_rfc1143 t telopt (Q_US q) Q_WANTYES_OP, [])
      else if Q_HIM q = Q_WANTNO_OP then (set_rfc1143 t telopt (Q_US q) Q_WANTNO, [])
      else (t, [])
    else (t, [])

/-- All `_negotiate` can do to the tracker is one `_set_rfc1143`. So an
invariant of the table has to be looked at in one function only. -/
theorem negotiate_fst (t : Telnet) (telopt : UInt8) :
    (negotiate t telopt).1 = t
      ∨ ∃ us him, (negotiate t telopt).1 = set_rfc1143 t telopt us him := by
  unfold negotiate negotiate_will negotiate_wont negotiate_do negotiate_dont
  -- one case for each branch of the five functions
  repeat' split
  all_goals first
    | exact Or.inl rfl
    | exact Or.inr ⟨_, _, rfl⟩

end AutoMag.Libtelnet
