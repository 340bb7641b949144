/-
`Client/Outgoing.lean` -- from `_input` to the wire, and back at the other end.

`Client/Handler.lean` stops at the calls of `_send`; here is `_send` itself, over a
`send()` that may take any part of what it is given, or fail. `carry` performs the
`_send` calls of a trace with it.

The other end is a libtelnet receiver. Outgoing text has its IAC bytes doubled and no
other, so a receiver is only ever in the DATA state or between the two bytes of a
pair (`Paired`); that is the invariant over the cuts.
-/
import AutoMag.Client.Trace
import AutoMag.Lib.Sending
import AutoMag.Libtelnet.Data

set_option autoImplicit false

namespace AutoMag.Client

open AutoMag.CMemory AutoMag.Libtelnet AutoMag.Machine
open AutoMag.Sending (Flows write_flows)

/-! ## `_send` -/

/-- What `send()` returned: how many bytes it took, or -1 with `errno`. -/
abbrev Sent : Type := Sending.Sent String

/-- The socket as the program writes it: the calls of `send()` made, the bytes
taken, what went to stderr. -/
structure Socket extends Sending.Socket where
  stderr : String
  status : Status
deriving DecidableEq

/-- `fprintf(stderr, ...)` and `exit(1)`. -/
def Socket.fail (s : Socket) (text : String) : Socket :=
  { s with stderr := s.stderr ++ text, status := .exited 1 }

/-- `_send(sock, buffer, size)`, with `buffer` the `size` bytes; `net k size` is
what the `k`-th call of `send()` returns when it is asked for `size` bytes. -/
def send (net : ℕ → ℕ → Sent) (s : Socket) (buffer : List UInt8) : Socket :=
  Sending.write net (fun k => { s with toSocket := k })
    (fun k errno => { s with toSocket := k }.fail ("send() failed: " ++ errno ++ "\n"))
    (fun k => { s with toSocket := k }.fail "send() unexpectedly returned 0\n") s.toSocket buffer

/-- The `_send` calls of a trace, one after the other until the process
exits. -/
def carry (net : ℕ → ℕ → Sent) (s : Socket) (acts : List Act) : Socket :=
  acts.foldl (fun s a => match a with
    | .send _ bytes => if s.status = .running then send net s bytes else s
    | _ => s) s

/-- **Partial writes do not show**: the whole buffer goes out, in order, and the
process goes on. -/
theorem send_flows {net : ℕ → ℕ → Sent} (hnet : Flows net) (s : Socket) (buffer : List UInt8) :
    (send net s buffer).wire = s.wire ++ buffer
      ∧ (send net s buffer).status = s.status ∧ (send net s buffer).stderr = s.stderr := by
  obtain ⟨k, hdone, hwire⟩ := write_flows hnet (fun k => { s with toSocket := k })
    (fun k errno => { s with toSocket := k }.fail ("send() failed: " ++ errno ++ "\n"))
    (fun k => { s with toSocket := k }.fail "send() unexpectedly returned 0\n") s.toSocket buffer
  rw [send, hdone]
  exact ⟨hwire, rfl, rfl⟩

/-- The same for all the calls of a trace: the stream on the socket is the bytes
of the trace, and no schedule of the kernel shows in it. -/
theorem carry_flows {net : ℕ → ℕ → Sent} (hnet : Flows net) (acts : List Act) (s : Socket)
    (hs : s.status = .running) :
    (carry net s acts).wire = s.wire ++ wire acts ∧ (carry net s acts).status = .running
      ∧ (carry net s acts).stderr = s.stderr := by
  induction acts generalizing s with
  | nil => exact ⟨(List.append_nil _).symm, hs, rfl⟩
  | cons a acts ih =>
      cases a with
      | send who bytes =>
          obtain ⟨hwire, hstatus, hstderr⟩ := send_flows hnet s bytes
          have hstep : carry net s (.send who bytes :: acts)
              = carry net (send net s bytes) acts := by
            simp only [carry, List.foldl_cons, hs, if_true]
          obtain ⟨hwire', hstatus', hstderr'⟩ := ih (send net s bytes) (hstatus.trans hs)
          rw [hstep]
          refine ⟨?_, hstatus', hstderr'.trans hstderr⟩
          rw [hwire', hwire, List.append_assoc]
          rfl
      | _ => exact ih s hs

/-! ## The image of a text -/

/-- What goes out for one byte. -/
def image (b : UInt8) : List UInt8 :=
  if b = CR ∨ b = LF then [CR, LF]
  else if b = 0xFF then [0xFF, 0xFF]
  else [b]

theorem escape_crlf (b : UInt8) : escape (crlf b) = image b := by
  unfold image crlf
  split
  · rfl
  · simp [escape, TELNET_IAC]

/-! ## The receiver -/

/-- Every IAC of the stream is one of a pair; `half`: the first of one has been
seen. -/
def Paired : Bool → List UInt8 → Prop
  | half, [] => half = false
  | false, b :: bs => Paired (b = TELNET_IAC) bs
  | true, b :: bs => b = TELNET_IAC ∧ Paired false bs

/-- The parser is where `half` says. -/
def At (half : Bool) (t : Telnet) : Prop := t.state = if half then .IAC else .DATA

/-- A byte goes out as CR LF, as a pair of IACs, or as itself. -/
theorem image_cases (b : UInt8) :
    (crlf b = [CR, LF] ∧ image b = [CR, LF])
      ∨ (crlf b = [TELNET_IAC] ∧ image b = [TELNET_IAC, TELNET_IAC])
      ∨ (b ≠ TELNET_IAC ∧ crlf b = [b] ∧ image b = [b]) := by
  unfold image crlf
  by_cases hnl : b = CR ∨ b = LF
  · rw [if_pos hnl, if_pos hnl]
    exact Or.inl ⟨rfl, rfl⟩
  · rw [if_neg hnl, if_neg hnl]
    by_cases hiac : b = 0xFF
    · rw [if_pos hiac, hiac]
      exact Or.inr (Or.inl ⟨rfl, rfl⟩)
    · rw [if_neg hiac]
      exact Or.inr (Or.inr ⟨hiac, rfl, rfl⟩)

/-- In such a stream every IAC is one of a pair. -/
theorem paired_image (text : List UInt8) : Paired false (text.flatMap image) := by
  induction text with
  | nil => rfl
  | cons b text ih =>
      rw [List.flatMap_cons]
      rcases image_cases b with ⟨_, h⟩ | ⟨_, h⟩ | ⟨hb, _, h⟩
      · rw [h]
        exact ih
      · rw [h]
        exact ⟨rfl, ih⟩
      · rw [h, List.singleton_append, Paired, decide_eq_false hb]
        exact ih

/-- One byte of such a stream: no event but data, and none to discard. Between
the two IACs of a pair the tracker is in the IAC state, and that is the only
other one it comes to. -/
theorem byte_paired {half : Bool} {t : Telnet} {b : UInt8} {bs : List UInt8} (ht : At half t)
    (hp : Paired half (b :: bs)) :
    ∃ half', At half' (process_byte t b).telnet ∧ Paired half' bs
      ∧ control (process_byte t b).events = [] ∧ skips t b = false := by
  cases half with
  | false =>
      have hst : t.state = .DATA := ht
      refine ⟨b = TELNET_IAC, ?_, hp, ?_, by simp [skips, hst]⟩
      · by_cases hb : b = TELNET_IAC
        · simp [At, process_byte, hst, hb]
        · simp [At, process_byte, hst, hb]
      · simp only [process_byte, hst]
        split <;> rfl
  | true =>
      -- the second of the pair ends the command
      have hst : t.state = .IAC := ht
      obtain ⟨rfl, hp⟩ := hp
      have hbyte : process_byte t TELNET_IAC
          = ⟨{ t with state := .DATA }, [.DATA [TELNET_IAC]], false, some 1, false⟩ := by
        simp only [process_byte, hst]
        rfl
      rw [hbyte]
      exact ⟨false, rfl, hp, rfl, by simp [skips, hst]⟩

/-- A block of it, wherever the cut falls, between the two IACs of a pair
too. -/
theorem block_paired (bs : List UInt8) : ∀ {half : Bool} {t : Telnet} {rest : List UInt8},
    At half t → Paired half (bs ++ rest) →
    ∃ half', At half' (feed byte_step t bs).1 ∧ Paired half' rest
      ∧ control (feed byte_step t bs).2 = [] ∧ Unwrapped (t, false) bs
      ∧ (feed data_step (t, false) bs).1 = ((feed byte_step t bs).1, false) := by
  induction bs with
  | nil =>
      intro half t rest ht hp
      exact ⟨half, ht, hp, rfl, trivial, rfl⟩
  | cons b bs ih =>
      intro half t rest ht hp
      obtain ⟨half', ht', hp', hev, hskip⟩ := byte_paired ht hp
      obtain ⟨half'', ht'', hp'', hevs, hunwrapped, hdata⟩ := ih ht' hp'
      have hstep : (data_step (t, false) b).1 = ((process_byte t b).telnet, false) := by
        rw [data_step, hskip]
      refine ⟨half'', ht'', hp'', ?_, ⟨by simp, ?_⟩, ?_⟩
      · have hcons : (feed byte_step t (b :: bs)).2
            = (process_byte t b).events ++ (feed byte_step (process_byte t b).telnet bs).2 := rfl
        rw [hcons, control_append, hev, hevs]
        rfl
      · rw [hstep]
        exact hunwrapped
      · rw [feed_cons, hstep]
        exact hdata

/-- Events that are within the block and no control events are data. -/
theorem all_data {evs : List Event} (h : control evs = []) (hin : ∀ ev ∈ evs, ev.isContained) :
    ∀ ev ∈ evs, ∃ bytes, ev = .DATA bytes := by
  intro ev hev
  have hc : ¬ ev.isControl := List.filter_eq_nil_iff.mp h ev hev
  have hev := hin ev hev
  cases ev with
  | DATA bytes => exact ⟨bytes, rfl⟩
  | OVERREAD bytes => cases hev
  | _ => exact absurd rfl hc

/-- **A receiver does not see the cuts of such a stream**: data only, the data
of the whole, and back in the DATA state at its end. -/
theorem recv_paired (blocks : List (List UInt8)) : ∀ {half : Bool} {t : Telnet},
    At half t → Paired half blocks.flatten →
    (feed telnet_recv t blocks).1.state = .DATA
      ∧ (∀ ev ∈ (feed telnet_recv t blocks).2, ∃ bytes, ev = .DATA bytes)
      ∧ delivered (feed telnet_recv t blocks).2 = data t blocks.flatten := by
  induction blocks with
  | nil =>
      intro half t ht hp
      have hhalf : half = false := hp
      rw [hhalf] at ht
      exact ⟨ht, nofun, rfl⟩
  | cons bs blocks ih =>
      intro half t ht hp
      rw [List.flatten_cons] at hp ⊢
      obtain ⟨half', ht', hp', hev, hunwrapped, hdata⟩ := block_paired bs ht hp
      have hclear : Clear (t, false) bs := hunwrapped.clear (by rw [hdata])
      rw [← telnet_recv_fst] at ht' hdata
      rw [← telnet_recv_control] at hev
      obtain ⟨hstate, hevs, hdel⟩ := ih ht' hp'
      rw [feed_cons]
      refine ⟨hstate, ?_, ?_⟩
      · intro ev hmem
        rcases List.mem_append.mp hmem with hmem | hmem
        · exact all_data hev (telnet_recv_contained hclear) ev hmem
        · exact hevs ev hmem
      · rw [delivered_append, hdel, telnet_recv_data t bs hunwrapped, data, data, data, feed_append,
          hdata]

/-- The data of an image is the text with its line ends, byte by byte. -/
theorem data_image (text : List UInt8) {t : Telnet} (ht : t.state = .DATA) :
    feed data_step (t, false) (text.flatMap image) = ((t, false), text.flatMap crlf) := by
  induction text with
  | nil => rfl
  | cons b text ih =>
      have hone : feed data_step (t, false) (image b) = ((t, false), crlf b) := by
        rcases image_cases b with ⟨hc, h⟩ | ⟨hc, h⟩ | ⟨hb, hc, h⟩
        · rw [h, hc]
          exact feed_data_plain ⟨ht, rfl⟩ (by decide)
        · -- the first of the pair opens a command, the second closes it and is the data
          have hopen : data_step (t, false) TELNET_IAC
              = (({ t with state := .IAC }, false), []) := by
            simp [data_step, process_byte, skips, passed, ht]
          have hclose : data_step ({ t with state := .IAC }, false) TELNET_IAC
              = (({ t with state := .DATA }, false), [TELNET_IAC]) := by
            simp [data_step, process_byte, skips, passed, iac_byte, TELNET_IAC, TELNET_SB,
              TELNET_WILL, TELNET_WONT, TELNET_DO, TELNET_DONT]
          have hback : { t with state := .DATA } = t := by
            rw [← ht]
          rw [h, hc, feed_cons, hopen, feed_cons, hclose, hback]
          rfl
        · rw [h, hc]
          exact feed_data_plain ⟨ht, rfl⟩ (by simpa using hb.symm)
      rw [List.flatMap_cons, feed_append, hone, ih]
      rfl

/-! ## The whole path -/

/-- **The outgoing path is lossless**: under any schedule of partial writes
`_input` puts the image of its text on the socket, and a receiver in its data
state gets the text back from it, however the bytes are cut. -/
theorem outgoing_lossless (term : List UInt8) (who : Origin) (c : Session)
    (hc : c.status = .running) (buffer : List UInt8) (n : ℕ) (hn : n ≤ buffer.length)
    (net : ℕ → ℕ → Sent) (hnet : Flows net) (s : Socket) (hs : s.status = .running) :
    (carry net s ((input term who c buffer n).trace.drop c.trace.length)).wire
        = s.wire ++ (buffer.take n).flatMap image
      ∧ (carry net s ((input term who c buffer n).trace.drop c.trace.length)).status = .running
      ∧ ∀ (t : Telnet) (blocks : List (List UInt8)), t.state = .DATA →
        s.wire ++ blocks.flatten
          = (carry net s ((input term who c buffer n).trace.drop c.trace.length)).wire →
        (∀ ev ∈ (feed telnet_recv t blocks).2, ∃ bytes, ev = .DATA bytes)
          ∧ delivered (feed telnet_recv t blocks).2 = (buffer.take n).flatMap crlf
          ∧ (feed telnet_recv t blocks).1.state = .DATA := by
  have hlen : (buffer.take n).length = n := by
    rw [List.length_take]
    omega
  have htrace : (input term who c buffer n).trace.drop c.trace.length
      = input_acts who c.do_echo (buffer.take n) := by
    rw [input_spec term who c buffer n hc, Session.log_trace, List.drop_left, input_acts, hlen]
  have himage : wire (input_acts who c.do_echo (buffer.take n))
      = (buffer.take n).flatMap image := by
    rw [wire_input_acts]
    exact List.flatMap_congr fun b _ => escape_crlf b
  obtain ⟨hwire, hstatus, _⟩ := carry_flows hnet (input_acts who c.do_echo (buffer.take n)) s hs
  rw [htrace, hwire, himage]
  refine ⟨rfl, hstatus, ?_⟩
  intro t blocks ht hcut
  have hflat : blocks.flatten = (buffer.take n).flatMap image := List.append_cancel_left hcut
  have hat : At false t := ht
  have hpaired : Paired false blocks.flatten := by
    rw [hflat]
    exact paired_image _
  obtain ⟨hstate, hevs, hdel⟩ := recv_paired blocks hat hpaired
  refine ⟨hevs, ?_, hstate⟩
  rw [hdel, hflat, data, data_image _ ht]

/-- A socket nothing has been written to. -/
def Socket.fresh : Socket := ⟨{}, "", .running⟩

/-- A `send()` that takes one byte at a time is such a network. -/
theorem flows_bytewise : Flows (fun _ _ => .sent 1 : ℕ → ℕ → Sent) :=
  fun _ _ h => ⟨1, rfl, Nat.le_refl 1, h⟩

/-- A letter, a line end and an IAC, written byte by byte and cut inside the
pair. -/
theorem outgoing_lossless_bytewise :
    (carry (fun _ _ => .sent 1) .fresh
        ((input [] .stdin .start [97, 10, 0xFF] (3 : ℕ)).trace.drop
          Session.start.trace.length)).wire
      = [97, 13, 10, 0xFF, 0xFF]
    ∧ delivered (feed telnet_recv (telnet_init telopts 0) [[97, 13, 10, 0xFF], [0xFF]]).2
      = [97, 13, 10, 0xFF] := by
  have h := outgoing_lossless [] .stdin .start rfl [97, 10, 0xFF] 3 (by decide) (fun _ _ => .sent 1)
    flows_bytewise .fresh rfl
  have hwire := h.1.trans (by decide : Socket.fresh.wire ++ [97, 10, 0xFF].flatMap image
    = [97, 13, 10, 0xFF, 0xFF])
  have hrecv := h.2.2 (telnet_init telopts 0) [[97, 13, 10, 0xFF], [0xFF]] rfl hwire.symm
  exact ⟨hwire, hrecv.2.1⟩

end AutoMag.Client
