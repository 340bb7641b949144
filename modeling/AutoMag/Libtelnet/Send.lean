/-
`Libtelnet/Send.lean` -- the sending half of `libtelnet.c`.

Every sender comes down to `_send`, which without zlib hands its bytes to the handler
as they are, so a sender here is the list of `SEND` events it raises. What a format
string expands to is a parameter: `vsnprintf` is not this library's business. A `char *`
argument is a `CString`, the bytes before its NUL.
-/
import AutoMag.Libtelnet.Told

set_option autoImplicit false

namespace AutoMag.Libtelnet

open AutoMag.Machine

/-- A C string: what stands before its NUL. -/
structure CString where
  bytes : List UInt8
  no_nul : 0 ∉ bytes
deriving DecidableEq

/-! ## 1. The senders -/

/-- `telnet_iac`. -/
def telnet_iac (cmd : UInt8) : List Event := [.SEND [TELNET_IAC, cmd]]

/-- `telnet_begin_sb`. -/
def telnet_begin_sb (telopt : UInt8) : List Event := [.SEND [TELNET_IAC, TELNET_SB, telopt]]

/-- `telnet_finish_sb`, a macro; so are `telnet_finish_zmp` and
`telnet_finish_newenviron`. -/
def telnet_finish_sb : List Event := telnet_iac TELNET_SE

/-- `telnet_subnegotiation`: header, escaped content, footer. -/
def telnet_subnegotiation (telopt : UInt8) (buffer : List UInt8) : List Event :=
  .SEND [TELNET_IAC, TELNET_SB, telopt] :: (telnet_send buffer ++ [.SEND [TELNET_IAC, TELNET_SE]])

/-- The loop of `telnet_vprintf` over the formatted text; `pending` is
`output[l..i)`. -/
def telnet_vprintf_loop (pending : List UInt8) : List UInt8 → List Event
  | [] => if pending = [] then [] else [.SEND pending]
  | b :: rest =>
      if b = TELNET_IAC ∨ b = 13 ∨ b = 10 then
        -- dump prior portion of text, then the special character
        (if pending = [] then [] else [.SEND pending])
          ++ (if b = TELNET_IAC then telnet_iac TELNET_IAC
              -- automatic translation of \r -> CRNUL, of \n -> CRLF
              else if b = 13 then [.SEND [13, 0]] else [.SEND [13, 10]])
          ++ telnet_vprintf_loop [] rest
      else telnet_vprintf_loop (pending ++ [b]) rest

/-- `telnet_vprintf` and `telnet_printf`, once the text is formatted. -/
def telnet_printf (output : List UInt8) : List Event := telnet_vprintf_loop [] output

/-- `telnet_raw_vprintf` and `telnet_raw_printf`: formatted data through
`telnet_send`. -/
def telnet_raw_printf (output : List UInt8) : List Event := telnet_send output

/-- `telnet_begin_newenviron`. -/
def telnet_begin_newenviron (cmd : UInt8) : List Event :=
  telnet_begin_sb TELNET_TELOPT_NEW_ENVIRON ++ telnet_send [cmd]

/-- `telnet_newenviron_value`; `none` is a null pointer. -/
def telnet_newenviron_value (type : UInt8) (string : Option CString) : List Event :=
  telnet_send [type] ++ (match string with
    | none => []
    | some s => telnet_send s.bytes)

/-- `telnet_ttype_send`. -/
def telnet_ttype_send : List Event :=
  [.SEND [TELNET_IAC, TELNET_SB, TELNET_TELOPT_TTYPE, TELNET_TTYPE_SEND, TELNET_IAC, TELNET_SE]]

/-- `telnet_zmp_arg`: the argument with its trailing NUL. -/
def telnet_zmp_arg (arg : CString) : List Event := telnet_send (arg.bytes ++ [0])

/-- `telnet_begin_zmp`. -/
def telnet_begin_zmp (cmd : CString) : List Event :=
  telnet_begin_sb TELNET_TELOPT_ZMP ++ telnet_zmp_arg cmd

/-- `telnet_send_zmp` with `argv[0]` and the other arguments: the loop starts at
1. -/
def telnet_send_zmp (cmd : CString) (args : List CString) : List Event :=
  telnet_begin_zmp cmd ++ args.flatMap telnet_zmp_arg ++ telnet_finish_sb

/-- `telnet_send_vzmpv` and `telnet_send_zmpv`: the arguments up to the null
pointer. -/
def telnet_send_zmpv (args : List CString) : List Event :=
  telnet_begin_sb TELNET_TELOPT_ZMP ++ args.flatMap telnet_zmp_arg ++ telnet_finish_sb

/-! ## 2. The bytes that go out -/

/-- The bytes of the `SEND` events. -/
def posted (evs : List Event) : List UInt8 :=
  evs.flatMap fun | .SEND bytes => bytes | _ => []

@[simp] theorem posted_nil : posted [] = [] := rfl

@[simp] theorem posted_append (as bs : List Event) : posted (as ++ bs) = posted as ++ posted bs :=
  List.flatMap_append ..

@[simp] theorem posted_send (bytes : List UInt8) (evs : List Event) :
    posted (.SEND bytes :: evs) = bytes ++ posted evs := rfl

/-- Many calls in a row put their bytes on the wire in a row. -/
theorem posted_flatMap {α : Type*} (f : α → List Event) (as : List α) :
    posted (as.flatMap f) = as.flatMap fun a => posted (f a) := by
  induction as with
  | nil => rfl
  | cons a as ih => rw [List.flatMap_cons, List.flatMap_cons, posted_append, ih]

/-- IAC bytes doubled. -/
def doubled (bytes : List UInt8) : List UInt8 :=
  bytes.flatMap fun b => if b = TELNET_IAC then [TELNET_IAC, TELNET_IAC] else [b]

theorem doubled_cons (b : UInt8) (bytes : List UInt8) :
    doubled (b :: bytes)
      = (if b = TELNET_IAC then [TELNET_IAC, TELNET_IAC] else [b]) ++ doubled bytes := rfl

/-- The doubling is byte by byte, so it does not matter how the text is cut up
between calls. -/
theorem doubled_append (as bs : List UInt8) : doubled (as ++ bs) = doubled as ++ doubled bs :=
  List.flatMap_append ..

/-- Where there is no IAC there is nothing to escape. -/
theorem doubled_of_not_mem {bytes : List UInt8} (h : TELNET_IAC ∉ bytes) :
    doubled bytes = bytes := by
  induction bytes with
  | nil => rfl
  | cons b bytes ih =>
      have hb : b ≠ TELNET_IAC := fun hb => h (hb ▸ List.mem_cons_self ..)
      rw [doubled_cons, if_neg hb, ih fun hm => h (List.mem_cons_of_mem _ hm)]
      rfl

/-- The flush at the end of both loops: nothing is sent for an empty stretch,
and no byte is lost by that. -/
theorem posted_pending (pending : List UInt8) :
    posted (if pending = [] then [] else [.SEND pending]) = pending := by
  split
  · next h => rw [h]; rfl
  · simp

/-- The loop of `telnet_send`, with what it holds back. The induction is on the
bytes, for every stretch pending: at an IAC that stretch goes out on its own and
the IAC follows it twice. -/
theorem posted_telnet_send_loop (bytes : List UInt8) : ∀ pending : List UInt8,
    posted (telnet_send_loop pending bytes) = pending ++ doubled bytes := by
  induction bytes with
  | nil =>
      intro pending
      rw [telnet_send_loop, posted_pending]
      exact (List.append_nil _).symm
  | cons b bytes ih =>
      intro pending
      rw [telnet_send_loop, doubled_cons]
      split
      · rw [posted_append, posted_pending, posted_send, ih]
        rfl
      · rw [ih, List.append_assoc]

/-- **`telnet_send` doubles the IACs**, whatever pieces it sends them in. The
pieces matter to `_send` and to nobody else, so everything above is stated about
the bytes. -/
@[simp] theorem posted_telnet_send (bytes : List UInt8) :
    posted (telnet_send bytes) = doubled bytes := posted_telnet_send_loop bytes []

/-- The text with the line ends of the network. -/
def network (output : List UInt8) : List UInt8 :=
  output.flatMap fun b => if b = 13 then [13, 0] else if b = 10 then [13, 10] else [b]

/-- The loop of `telnet_vprintf` over the formatted text. It holds a stretch
back as the other one does, and ends it at an IAC, a CR and an LF. -/
theorem posted_telnet_vprintf_loop (output : List UInt8) : ∀ pending : List UInt8,
    posted (telnet_vprintf_loop pending output) = pending ++ doubled (network output) := by
  induction output with
  | nil =>
      intro pending
      rw [telnet_vprintf_loop, posted_pending]
      exact (List.append_nil _).symm
  | cons b output ih =>
      intro pending
      have hcons : network (b :: output)
          = (if b = 13 then [13, 0] else if b = 10 then [13, 10] else [b]) ++ network output := rfl
      rw [telnet_vprintf_loop, hcons, doubled_append]
      by_cases hiac : b = TELNET_IAC
      · subst hiac
        rw [if_pos (Or.inl rfl), if_pos rfl, posted_append, posted_append, posted_pending, ih,
          List.append_assoc]
        rfl
      · by_cases hcr : b = 13
        · subst hcr
          rw [if_pos (Or.inr (Or.inl rfl)), if_neg hiac, if_pos rfl, posted_append, posted_append,
            posted_pending, ih, List.append_assoc]
          rfl
        · by_cases hlf : b = 10
          · subst hlf
            rw [if_pos (Or.inr (Or.inr rfl)), if_neg hiac, if_neg hcr, posted_append,
              posted_append, posted_pending, ih, List.append_assoc]
            rfl
          · have hone : doubled [b] = [b] := doubled_of_not_mem (by simpa using Ne.symm hiac)
            rw [if_neg (by simp [hiac, hcr, hlf]), ih, if_neg hcr, if_neg hlf, hone,
              List.append_assoc]

/-- **`telnet_printf` is `telnet_send` of the text with network line ends.** The
two loops are written out separately in the source and agree to the byte. -/
@[simp] theorem posted_telnet_printf (output : List UInt8) :
    posted (telnet_printf output) = doubled (network output) :=
  posted_telnet_vprintf_loop output []

end AutoMag.Libtelnet
