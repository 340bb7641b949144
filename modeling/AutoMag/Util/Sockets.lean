/-
`Util/Sockets.lean` -- what the two servers in `libtelnet/util` have in common.

`telnet-proxy.c` and `telnet-chatd.c` have one `_send` between them: it writes in a loop,
gives the rest of a buffer up when the call was interrupted or the connection reset, and
ends the process on anything else. The network is a parameter: what each call of `send()`
returns. `Except` is the process: an error is how it came to its end.
-/
import AutoMag.Lib.Sending

set_option autoImplicit false

namespace AutoMag.Util

/-- `errno`, as far as the programs tell its values apart. -/
inductive Errno where
  | EINTR
  | ECONNRESET
  | other (text : String)

/-- What `recv()` returned: some bytes, 0, or -1. -/
inductive Received where
  | block (bytes : List UInt8)
  | closed
  | error (errno : Errno)

/-- The socket as the programs write it. -/
abbrev Socket : Type := Sending.Socket

/-- The network of one socket: what the `k`-th call of `send()` returns when it
is asked for `size` bytes. -/
abbrev Net : Type := Sending.Net Errno

/-- How a process ends. Behind an array or a null pointer C promises nothing
more, and in practice the system puts an end to it. -/
inductive Stop where
  -- `exit(1)`, or `return 1` from `main`, with what was written to stderr
  | exit (stderr : String)
  -- it writes behind the end of an array
  | overrun
  -- it reads behind the end of the block it was given
  | overread
  -- it reads through a null pointer
  | null

/-- `_send(sock, buffer, size)`, with `buffer` the `size` bytes. -/
def send (net : Net) (s : Socket) (buffer : List UInt8) : Except Stop Socket :=
  Sending.write net .ok
    (fun s errno => match errno with
      -- the rest of the buffer is given up
      | .EINTR | .ECONNRESET => .ok s
      | .other text => .error (.exit ("send() failed: " ++ text ++ "\n")))
    (fun _ => .error (.exit "send() unexpectedly returned 0\n")) s buffer

/-- **Partial writes do not show**: the whole buffer goes out, in order. -/
theorem send_flows {net : Net} (hnet : Sending.Flows net) (s : Socket) (buffer : List UInt8) :
    ∃ s', send net s buffer = .ok s' ∧ s'.wire = s.wire ++ buffer :=
  Sending.write_flows hnet _ _ _ s buffer

end AutoMag.Util
