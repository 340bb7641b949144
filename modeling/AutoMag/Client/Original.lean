/-
`Client/Original.lean` -- the poll loop of `telnet-clientOriginal.c`, the plain
client AutoMag was made from.

Option table, `_event_handler` and `_input` are those of `Client/Handler.lean`, word
for word. The one array is written by `read` or `recv` and only the bytes just
written are used, so it is not kept as state.

`Fed` says that a session stands where the telnet layer stands after all the bytes
received, each once and in order. The plain loop is always there.
-/
import AutoMag.Client.Steps
import AutoMag.Client.Options

set_option autoImplicit false

namespace AutoMag.Client

open AutoMag.CMemory AutoMag.Libtelnet AutoMag.Machine

/-! ## The loop -/

/-- The session, and the results `read` and `recv` will get. -/
structure Original where
  session : Session
  stdin : List Result
  socket : List Result
deriving DecidableEq

def Original.start (stdin socket : List Result) : Original := ⟨.start, stdin, socket⟩

/-- `break`, clean up and return 0. -/
def Original.leave (s : Original) : Original :=
  { s with session := { s.session.log [.telnet_free, .close] with status := .exited 0 } }

/-- `fprintf(stderr, ...)` and `exit(1)`. -/
def Original.fail (s : Original) (text : String) : Original :=
  { s with session := { s.session.log [.fprintf text] with status := .exited 1 } }

/-- The stdin branch. -/
def original_stdin (term : List UInt8) (s : Original) : Original :=
  match s.stdin with
  | [] => s
  | r :: rest =>
      let s := { s with stdin := rest, session := s.session.log [.read r] }
      match r with
      -- here `rs` is the number of bytes read
      | .data c => { s with session := input term .stdin s.session c.bytes c.bytes.length }
      | .eof => s.leave
      | .error errno => s.fail ("recv(server) failed: " ++ errno ++ "\n")

/-- The socket branch. -/
def original_socket (term : List UInt8) (s : Original) : Original :=
  match s.socket with
  | [] => s
  | r :: rest =>
      let s := { s with socket := rest, session := s.session.log [.recv r] }
      match r with
      | .data c => { s with session := client_recv term s.session c.bytes }
      | .eof => s.leave
      | .error errno => s.fail ("recv(client) failed: " ++ errno ++ "\n")

/-- One pass of the loop. -/
def original_iteration (term : List UInt8) (s : Original) (p : Poll) : Original :=
  if s.session.status ≠ .running then s
  else match p with
    | .failed => s.leave
    | .ready stdin sock _ _ =>
        let s := if stdin then original_stdin term s else s
        if s.session.status = .running ∧ sock then original_socket term s else s

/-! ## Where the telnet layer should stand -/

/-- What the handler writes to the socket for an event. -/
def event_replies (term : List UInt8) (ev : Event) : List (List UInt8) :=
  replies (event_acts term .reply ev)

/-- The tracker, `do_echo` and the replies are those of all bytes received. -/
structure Fed (term : List UInt8) (c : Session) : Prop where
  telnet : c.telnet = (feed byte_step Session.start.telnet (received c.trace)).1
  do_echo : c.do_echo
    = (feed byte_step Session.start.telnet (received c.trace)).2.foldl echo_after true
  replies : replies c.trace
    = (feed byte_step Session.start.telnet (received c.trace)).2.flatMap (event_replies term)

theorem fed_start (term : List UInt8) : Fed term Session.start := ⟨rfl, rfl, rfl⟩

/-- `DATA` events write nothing, so the cut of the data does not show in the
replies. -/
theorem replies_control (term : List UInt8) (evs : List Event) :
    evs.flatMap (event_replies term) = (control evs).flatMap (event_replies term) := by
  induction evs with
  | nil => rfl
  | cons ev evs ih =>
      have hcons : (ev :: evs).flatMap (event_replies term)
          = event_replies term ev ++ evs.flatMap (event_replies term) := rfl
      rw [hcons, ih]
      cases ev <;> rfl

theorem replies_recv_acts (term : List UInt8) (t : Telnet) (bytes : List UInt8) :
    replies (recv_acts term t bytes) = (feed byte_step t bytes).2.flatMap (event_replies term) := by
  have hflat : replies (recv_acts term t bytes)
      = (telnet_recv t bytes).2.flatMap (event_replies term) := by
    unfold recv_acts
    -- event by event
    generalize (telnet_recv t bytes).2 = evs
    induction evs with
    | nil => rfl
    | cons ev evs ih => rw [List.flatMap_cons, replies_append, ih]; rfl
  rw [hflat, replies_control, telnet_recv_control, ← replies_control]

/-- A change that neither receives nor replies. -/
theorem Fed.of_silent {term : List UInt8} {c c' : Session} (h : Fed term c)
    (ht : c'.telnet = c.telnet) (he : c'.do_echo = c.do_echo)
    (hrecv : received c'.trace = received c.trace)
    (hrep : Client.replies c'.trace = Client.replies c.trace) : Fed term c' := by
  refine ⟨?_, ?_, ?_⟩
  · rw [ht, hrecv, h.telnet]
  · rw [he, hrecv, h.do_echo]
  · rw [hrep, hrecv, h.replies]

/-- The telnet layer takes in the bytes received: all of them, and in order. -/
theorem Fed.taken {term : List UInt8} {c c' : Session} (h : Fed term c) {x : List UInt8}
    (ht : c'.telnet = (telnet_recv c.telnet x).1)
    (he : c'.do_echo = (telnet_recv c.telnet x).2.foldl echo_after c.do_echo)
    (hrecv : received c'.trace = received c.trace ++ x)
    (hrep : Client.replies c'.trace
      = Client.replies c.trace ++ Client.replies (recv_acts term c.telnet x)) : Fed term c' := by
  refine ⟨?_, ?_, ?_⟩
  · rw [ht, hrecv, feed_append, ← h.telnet, telnet_recv_fst]
  · rw [he, hrecv, feed_append, ← h.telnet, List.foldl_append, ← h.do_echo, echo_control,
      telnet_recv_control, ← echo_control]
  · rw [hrep, hrecv, feed_append, ← h.telnet, List.flatMap_append, ← h.replies, replies_recv_acts]

/-- A session that is `Fed` shows what one call of `telnet_recv` on all of it
shows. -/
theorem Fed.eq_client_recv {term : List UInt8} {c : Session} (h : Fed term c) :
    c.telnet = (client_recv term .start (received c.trace)).telnet
      ∧ c.do_echo = (client_recv term .start (received c.trace)).do_echo
      ∧ Client.replies c.trace
        = Client.replies (client_recv term .start (received c.trace)).trace := by
  refine ⟨?_, ?_, ?_⟩
  · rw [client_recv_telnet term _ _ rfl]
    exact h.telnet
  · rw [client_recv_do_echo term _ _ rfl]
    exact h.do_echo
  · rw [client_recv_trace term _ _ rfl, replies_append, replies_recv_acts]
    exact h.replies

/-! ## The plain loop is fed -/

theorem Fed.log {term : List UInt8} {c : Session} (h : Fed term c) (acts : List Act)
    (hrecv : received acts = []) (hrep : Client.replies acts = []) : Fed term (c.log acts) :=
  h.of_silent rfl rfl (by simp [hrecv]) (by simp [hrep])

theorem Fed.status {term : List UInt8} {c : Session} (h : Fed term c) (status : Status) :
    Fed term { c with status := status } := ⟨h.1, h.2, h.3⟩

/-- Acts of the stdin branch neither receive nor reply. -/
theorem Fed.session_frame {term : List UInt8} {c c' : Session} (h : Fed term c)
    (hframe : SessionFrame c c') : Fed term c' := by
  obtain ⟨acts, htr, hof⟩ := hframe.trace
  apply h.of_silent hframe.telnet hframe.do_echo
  · rw [htr, received_append, received_ofStdin hof, List.append_nil]
  · rw [htr, replies_append, replies_ofStdin hof, List.append_nil]

theorem original_stdin_fed (term : List UInt8) (s : Original) (hs : s.session.status = .running)
    (h : Fed term s.session) : Fed term (original_stdin term s).session := by
  unfold original_stdin
  split
  · exact h
  · next r rest _ =>
      -- `read` and whatever `_input` sends are acts of the stdin branch
      have hread : SessionFrame s.session (s.session.log [.read r]) :=
        (SessionFrame.refl _).log _ (by simp [Act.ofStdin])
      cases r with
      | data c =>
          have hin : SessionFrame s.session (input term .stdin (s.session.log [.read (.data c)])
              c.bytes c.bytes.length) := hread.input hs
          exact h.session_frame hin
      | eof => exact ((h.session_frame hread).log [.telnet_free, .close] rfl rfl).status _
      | error errno => exact ((h.session_frame hread).log [.fprintf _] rfl rfl).status _

theorem original_socket_fed (term : List UInt8) (s : Original) (hs : s.session.status = .running)
    (h : Fed term s.session) : Fed term (original_socket term s).session := by
  unfold original_socket
  split
  · exact h
  · next r rest _ =>
      cases r with
      | data c =>
          have hspec := client_recv_spec term (s.session.log [.recv (.data c)]) c.bytes hs
          have htr := client_recv_trace term (s.session.log [.recv (.data c)]) c.bytes hs
          -- every byte received goes through `telnet_recv`, in the pass that received it
          apply h.taken (x := c.bytes)
          · exact (congrArg Session.telnet hspec).trans rfl
          · exact (congrArg Session.do_echo hspec).trans rfl
          · rw [htr, received_append, received_ofReply (recv_acts_ofReply term _ _)]
            simp [received, Result.bytes]
          · rw [htr, replies_append]
            simp [replies]
      | eof => exact ((h.log [.recv .eof] rfl rfl).log [.telnet_free, .close] rfl rfl).status _
      | error errno =>
          exact ((h.log [.recv (.error errno)] rfl rfl).log [.fprintf _] rfl rfl).status _

/-- **The plain loop hands on every byte it receives.** This is what the program
was made from, and what it is compared with. -/
theorem original_fed (term : List UInt8) (stdin socket : List Result) (polls : List Poll) :
    Fed term (run (original_iteration term) (Original.start stdin socket) polls).session := by
  refine run_invariant (original_iteration term) (I := fun s => Fed term s.session) ?_
    (fed_start term) polls
  intro s p h
  unfold original_iteration
  by_cases hs : s.session.status = .running
  · rw [if_neg (by simp [hs])]
    cases p with
    | failed => exact (h.log [.telnet_free, .close] rfl rfl).status _
    | ready stdin sock pastBuffer pastRecieve =>
        simp only
        have h₁ : Fed term (if stdin = true then original_stdin term s else s).session := by
          split
          · exact original_stdin_fed term s hs h
          · exact h
        generalize (if stdin = true then original_stdin term s else s) = s₁ at h₁
        split
        · next hrun => exact original_socket_fed term s₁ hrun.1 h₁
        · exact h₁
  · rw [if_pos hs]
    exact h

end AutoMag.Client
