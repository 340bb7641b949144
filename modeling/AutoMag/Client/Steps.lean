/-
`Client/Steps.lean` -- one pass of the poll loop, taken apart once.

`command_spec` and `commands_spec` say what sending formatted text does.
`StdinFrame` is the frame of the stdin branch: it never touches the receive side,
the LED flags or the telnet state, and whatever it notes is its own.
`SocketStep` lists the outcomes of the socket branch, each with the recv results it
used up and the state it leaves.
-/
import AutoMag.Client.Trace

set_option autoImplicit false

namespace AutoMag.Client

open AutoMag.CMemory AutoMag.Libtelnet AutoMag.Machine

/-! ## Formatted text -/

/-- A literal without NUL, which is what `sprintf` and `strlen` need. -/
def Plain (text : String) : Prop := ∀ b ∈ ascii text, b ≠ 0

instance (text : String) : Decidable (Plain text) := List.decidableBAll _ _

/-! The program's own texts hold no NUL. -/

theorem setup_texts_plain : ∀ t ∈ setup_texts, Plain t := by decide

theorem green_plain : Plain "\r\n GPLED LED1 SET\n" ∧ Plain "GPLED LED2 CLEAR\n" := by decide

theorem red_plain : Plain "GPLED LED2 SET\n" ∧ Plain "GPLED LED1 CLEAR\n" := by decide

/-- `sprintf` into `buffer`, and `_input` of its `strlen`: for a text without
NUL that is the text. -/
theorem command_spec (term : List UInt8) (who : Origin) (c : Session) (text : String)
    (hc : c.status = .running) (ht : Plain text) :
    command term who c text = c.log (input_acts who c.do_echo (ascii text)) := by
  have hlen : strlen (ascii text ++ [0]) = (ascii text).length := strlen_append_nul _ _ ht
  unfold command
  simp only
  rw [hlen, input_spec term who c _ _ hc]
  simp [input_acts]

/-- Several commands in a row, as the CAN setup sends them. Each of them leaves
`do_echo` as it was, so the acts can be listed at once. -/
theorem commands_spec (term : List UInt8) (who : Origin) (texts : List String) : ∀ c : Session,
    c.status = .running → (∀ t ∈ texts, Plain t) →
    texts.foldl (command term who) c
      = c.log (texts.flatMap fun t => input_acts who c.do_echo (ascii t)) := by
  induction texts with
  | nil => intro c _ _; simp
  | cons t texts ih =>
      intro c hc ht
      rw [List.foldl_cons, command_spec term who c t hc (ht t (List.mem_cons_self ..)),
        ih (c.log _) hc (fun t' h => ht t' (List.mem_cons_of_mem _ h))]
      simp

/-- The two LED commands of a message. -/
theorem Main.pair_spec (term : List UInt8) (s : Main) (a b : String)
    (hs : s.session.status = .running) (ha : Plain a) (hb : Plain b) :
    s.pair term a b
      = s.log ([a, b].flatMap fun t => input_acts .can s.session.do_echo (ascii t)) := by
  have hpair : s.pair term a b
      = { s with session := [a, b].foldl (command term .can) s.session } := rfl
  have hplain : ∀ t ∈ [a, b], Plain t := by
    simp only [List.mem_cons, List.not_mem_nil, or_false, forall_eq_or_imp, forall_eq]
    exact ⟨ha, hb⟩
  rw [hpair, commands_spec term .can _ _ hs hplain]
  rfl

/-! ## The frame of the stdin branch -/

/-- What the stdin branch leaves alone in the session: it only notes acts of its
own and may stop the process. -/
structure SessionFrame (c c' : Session) : Prop where
  telnet : c'.telnet = c.telnet
  do_echo : c'.do_echo = c.do_echo
  trace : ∃ acts, c'.trace = c.trace ++ acts ∧ ∀ a ∈ acts, a.ofStdin

namespace SessionFrame

theorem refl (c : Session) : SessionFrame c c := ⟨rfl, rfl, [], by simp, by simp⟩

/-- Two parts of the branch in a row. -/
theorem trans {c c' c'' : Session} (h : SessionFrame c c') (h' : SessionFrame c' c'') :
    SessionFrame c c'' := by
  obtain ⟨as, has, has'⟩ := h.trace
  obtain ⟨bs, hbs, hbs'⟩ := h'.trace
  refine ⟨h'.1.trans h.1, h'.2.trans h.2, as ++ bs, by rw [hbs, has, List.append_assoc], ?_⟩
  intro a ha
  rcases List.mem_append.mp ha with ha | ha
  · exact has' a ha
  · exact hbs' a ha

theorem log {c c' : Session} (h : SessionFrame c c') (acts : List Act)
    (ha : ∀ a ∈ acts, a.ofStdin) : SessionFrame c (c'.log acts) :=
  h.trans ⟨rfl, rfl, acts, rfl, ha⟩

/-- `_input`, whatever the buffer and the size: it writes to the trace, and the
tracker and the echo stay. -/
theorem input {c c' : Session} (h : SessionFrame c c') (hc : c'.status = .running)
    {term buffer : List UInt8} {size : ℤ} :
    SessionFrame c (Client.input term .stdin c' buffer size) := by
  apply h.trans
  -- a negative size never meets the loop test and the loop runs off the array; what it
  -- sends on the way is the stdin branch's all the same
  by_cases hsize : size < 0
  · unfold Client.input
    rw [if_pos hsize, input_loop_spec term .stdin buffer (c'.log [.input .stdin buffer size]) hc]
    refine ⟨rfl, rfl,
      .input .stdin buffer size :: buffer.flatMap (char_acts .stdin c'.do_echo), ?_, ?_⟩
    · simp
    · intro a ha
      rcases List.mem_cons.mp ha with rfl | ha
      · rfl
      · exact input_acts_ofStdin _ buffer a (List.mem_cons_of_mem _ ha)
  · obtain ⟨n, rfl⟩ := Int.eq_ofNat_of_zero_le (by omega : 0 ≤ size)
    rw [input_spec term .stdin c' buffer n hc]
    refine ⟨rfl, rfl, _, rfl, ?_⟩
    intro a ha
    rcases List.mem_cons.mp ha with rfl | ha
    · rfl
    · exact input_acts_ofStdin _ _ a (List.mem_cons_of_mem _ ha)

theorem halt {c c' : Session} (h : SessionFrame c c') (status : Status) :
    SessionFrame c { c' with status := status } := ⟨h.1, h.2, h.3⟩

end SessionFrame

/-- What the stdin branch leaves alone. -/
structure StdinFrame (s s' : Main) : Prop where
  recieveBuffer : s'.recieveBuffer = s.recieveBuffer
  dataBuffer : s'.dataBuffer = s.dataBuffer
  greenLedState : s'.greenLedState = s.greenLedState
  redLedState : s'.redLedState = s.redLedState
  socket : s'.socket = s.socket
  session : SessionFrame s.session s'.session

/-- The same for the state of `main`. -/
theorem StdinFrame.trans {s s' s'' : Main} (h : StdinFrame s s') (h' : StdinFrame s' s'') :
    StdinFrame s s'' :=
  ⟨h'.1.trans h.1, h'.2.trans h.2, h'.3.trans h.3, h'.4.trans h.4, h'.5.trans h.5, h.6.trans h'.6⟩

theorem StdinFrame.log {s s' : Main} (h : StdinFrame s s') (acts : List Act)
    (ha : ∀ a ∈ acts, a.ofStdin) : StdinFrame s (s'.log acts) :=
  ⟨h.1, h.2, h.3, h.4, h.5, h.6.log acts ha⟩

/-- From a session frame, whatever happens to the locals of the menu. What the
frame is about (the LEDs, the buffers of the socket, the socket) is not among
them. -/
theorem StdinFrame.of_session {s : Main} {c : Session} (h : SessionFrame s.session c)
    {b : CArray 512} {br : Int32} {rs : ℤ} {stdin : List Result} {scanfs : List (Option Int32)} :
    StdinFrame s { s with
      session := c, buffer := b, br := br, rs := rs, stdin := stdin, scanfs := scanfs } :=
  ⟨rfl, rfl, rfl, rfl, rfl, h⟩

/-- A `read` takes a result off the keyboard and fills `buffer`. -/
theorem Main.read_frame {s s' : Main} {r : Result} (h : s.read = some (r, s')) :
    StdinFrame s s' ∧ s'.session.status = s.session.status := by
  unfold Main.read at h
  split at h
  · cases h
  · cases h
    exact ⟨⟨rfl, rfl, rfl, rfl, rfl, (SessionFrame.refl _).log [.read r] (by simp [Act.ofStdin])⟩,
      rfl⟩

/-- The submenu's commands, one of them with a number asked for. -/
theorem lin_open_frame (term : List UInt8) (mode : String) (s : Main)
    (hs : s.session.status = .running) : StdinFrame s (lin_open term mode s) := by
  have hlog := (SessionFrame.refl s.session).log [.printf (ascii "Please enter boudrate:")]
    (by simp [Act.ofStdin])
  unfold lin_open
  simp only
  -- `scanf` blocks here when nothing has been typed
  split
  · exact ⟨rfl, rfl, rfl, rfl, rfl, hlog.halt _⟩
  · next v rest _ =>
      have hscanf := hlog.log [.scanf (v.map Int32.toInt)] (by simp [Act.ofStdin])
      exact .of_session (SessionFrame.input hscanf hs)

theorem lin_choice_frame (term : List UInt8) (s : Main) (hs : s.session.status = .running) :
    StdinFrame s (lin_choice term s) := by
  unfold lin_choice
  simp only
  -- five times the same case, `LIN CLOSE`, and the complaint
  repeat' split
  · exact lin_open_frame term _ s hs
  · exact lin_open_frame term _ s hs
  · exact lin_open_frame term _ s hs
  · exact lin_open_frame term _ s hs
  · exact lin_open_frame term _ s hs
  · exact .of_session ((SessionFrame.refl _).input hs)
  · exact .of_session ((SessionFrame.refl _).log _ (by simp [Act.ofStdin]))

theorem prompts_ofStdin (texts : List String) :
    ∀ a ∈ texts.map (fun text => Act.printf (ascii text)), a.ofStdin := by
  intro a ha
  obtain ⟨text, _, rfl⟩ := List.mem_map.mp ha
  rfl

/-- The submenu: prompts, a `read` of its own, and the choice. -/
theorem lin_menu_frame (term : List UInt8) (s : Main) (hs : s.session.status = .running) :
    StdinFrame s (lin_menu term s) := by
  have hlog := (SessionFrame.refl s.session).log lin_prompts (prompts_ofStdin _)
  unfold lin_menu
  split
  · exact ⟨rfl, rfl, rfl, rfl, rfl, hlog.halt _⟩
  · next r s' h =>
      obtain ⟨hread, hst⟩ := Main.read_frame h
      have hrs : StdinFrame s (s'.setRs r.count) :=
        ⟨hread.1, hread.2, hread.3, hread.4, hread.5, hlog.trans hread.6⟩
      exact hrs.trans (lin_choice_frame term _ (hst.trans hs))

/-- The CAN setup sends its seven commands and leaves both LED states alone,
though the controller's LEDs go off with it. -/
theorem can_setup_frame (term : List UInt8) (s : Main) (hs : s.session.status = .running) :
    StdinFrame s (can_setup term s) := by
  unfold can_setup
  rw [commands_spec term .stdin _ _ hs setup_texts_plain]
  refine ⟨rfl, rfl, rfl, rfl, rfl, (SessionFrame.refl _).log _ ?_⟩
  intro a ha
  obtain ⟨t, _, ha⟩ := List.mem_flatMap.mp ha
  exact input_acts_ofStdin _ _ a ha

theorem input_buffer_frame (term : List UInt8) (s : Main) (hs : s.session.status = .running) :
    StdinFrame s (s.input_buffer term) :=
  .of_session ((SessionFrame.refl _).input hs)

/-- The menu, by the key that was read. -/
theorem menu_frame (term : List UInt8) (s : Main) (hs : s.session.status = .running) :
    StdinFrame s (menu term s) := by
  have hlog : StdinFrame s (s.log menu_prompts) :=
    ⟨rfl, rfl, rfl, rfl, rfl, (SessionFrame.refl _).log _ (prompts_ofStdin _)⟩
  apply hlog.trans
  -- the prompts come first whatever the key; then `l`, `s`, `q` and the complaint
  unfold menu menu_choice
  simp only
  split
  · exact lin_menu_frame term _ hs
  split
  · exact can_setup_frame term _ hs
  split
  · exact ⟨rfl, rfl, rfl, rfl, rfl, (SessionFrame.refl _).halt _⟩
  · exact (input_buffer_frame term (s.log menu_prompts) hs).log _ (by simp [Act.ofStdin])

theorem typed_frame (term past : List UInt8) (s : Main) (hs : s.session.status = .running) :
    StdinFrame s (typed term past s) := by
  have hmenu : StdinFrame s (if 1 ≤ strlen (s.buffer.bytes ++ past) then menu term s
      else s.input_buffer term) := by
    split
    · exact menu_frame term s hs
    · exact input_buffer_frame term s hs
  unfold typed
  simp only
  -- what follows the menu does not depend on which way it went
  generalize (if 1 ≤ strlen (s.buffer.bytes ++ past) then menu term s
      else s.input_buffer term) = s' at hmenu
  split
  · next hrun => exact hmenu.trans (input_buffer_frame term s' hrun)
  · exact hmenu

/-- **The frame of the stdin branch.** Whatever is typed, the branch keeps the
tracker, `do_echo`, the LED states, the buffers of the socket and what is still
to come on it; and all it notes is of its own kind. -/
theorem stdin_branch_frame (term past : List UInt8) (s : Main) (hs : s.session.status = .running) :
    StdinFrame s (stdin_branch term past s) := by
  unfold stdin_branch
  split
  · exact ⟨rfl, rfl, rfl, rfl, rfl, (SessionFrame.refl _).halt _⟩
  · next c s' h =>
      obtain ⟨hread, hst⟩ := Main.read_frame h
      have hrs : StdinFrame s (s'.setRs 1) :=
        ⟨hread.1, hread.2, hread.3, hread.4, hread.5, hread.6⟩
      exact hrs.trans (typed_frame term past _ (hst.trans hs))
  · next r s' _ h =>
      -- 0 and -1 alike: `break`
      obtain ⟨hread, _⟩ := Main.read_frame h
      exact ⟨hread.1, hread.2, hread.3, hread.4, hread.5,
        (hread.6.log [.telnet_free, .close] (by simp [Act.ofStdin])).halt _⟩

/-! ## The outcomes of the socket branch -/

/-- The first part has been received and handed to the telnet layer. -/
def Main.first (term : List UInt8) (s : Main) (c : Chunk) (rest : List Result) : Main :=
  { s.after_recv (.data c) rest with
    session := client_recv term (s.session.log [.recv (.data c)]) c.bytes }

/-- The first result and the replies to it. Only this one is given to
`telnet_recv`; the other two of a message are not. -/
theorem Main.first_trace (term : List UInt8) (s : Main) (c : Chunk) (q : List Result)
    (hs : s.session.status = .running) :
    (s.first term c q).session.trace
      = s.session.trace ++ .recv (.data c) :: recv_acts term s.session.telnet c.bytes := by
  have htrace := client_recv_trace term (s.session.log [.recv (.data c)]) c.bytes hs
  rw [Session.log_trace, List.append_assoc] at htrace
  exact htrace

/-- The search has hit at `ret`, and eight bytes from there are in
`dataBuffer`. -/
def Main.found (s : Main) (past : List UInt8) (ret : ℕ) : Main :=
  { s with dataBuffer := s.dataBuffer.write 0 (first_part (s.searched past) ret) }

/-- The state in which a message is complete. -/
def Main.complete (term past : List UInt8) (s : Main) (c d e : Chunk) (q : List Result)
    (ret : ℕ) : Main :=
  (((((s.first term c (.data d :: .data e :: q)).found past ret).after_recv (.data d)
    (.data e :: q)).copy_part 8).after_recv (.data e) q).copy_part 16

/-- An act of the receive side that shows nothing: the end of the process. -/
def Act.ofEnd : Act → Bool
  | .fprintf _ => true
  | .telnet_free => true
  | .close => true
  | _ => false

/-- What the socket branch can do, by the results of its calls to `recv`. -/
inductive SocketStep (term past : List UInt8) (s : Main) : Main → Prop
  /-- 0 or -1 in the first call -/
  | closed {r : Result} {q : List Result} {acts : List Act} {status : Status}
      (hs : s.socket = r :: q) (hr : r.bytes = []) (ha : ∀ a ∈ acts, a.ofEnd) :
      SocketStep term past s (((s.after_recv r q).log acts).halt status)
  /-- no marker -/
  | plain {c : Chunk} {q : List Result} (hs : s.socket = .data c :: q)
      (hret : strstr checkMsg ((s.first term c q).searched past) = none) :
      SocketStep term past s (s.first term c q)
  /-- the second part has not come -/
  | wait_second {c : Chunk} {ret : ℕ} (hs : s.socket = [.data c])
      (hret : strstr checkMsg ((s.first term c []).searched past) = some ret) :
      SocketStep term past s (((s.first term c []).found past ret).halt .blocked)
  /-- 0 or -1 in the second call -/
  | no_second {c : Chunk} {r : Result} {q : List Result} {ret : ℕ}
      (hs : s.socket = .data c :: r :: q) (hr : r.bytes = [])
      (hret : strstr checkMsg ((s.first term c (r :: q)).searched past) = some ret) :
      SocketStep term past s (((s.first term c (r :: q)).found past ret).after_recv r q)
  /-- the third part has not come -/
  | wait_third {c d : Chunk} {ret : ℕ} (hs : s.socket = [.data c, .data d])
      (hret : strstr checkMsg ((s.first term c [.data d]).searched past) = some ret) :
      SocketStep term past s (((((s.first term c [.data d]).found past ret).after_recv (.data d)
        []).copy_part 8).halt .blocked)
  /-- 0 or -1 in the third call -/
  | no_third {c d : Chunk} {r : Result} {q : List Result} {ret : ℕ}
      (hs : s.socket = .data c :: .data d :: r :: q) (hr : r.bytes = [])
      (hret : strstr checkMsg ((s.first term c (.data d :: r :: q)).searched past) = some ret) :
      SocketStep term past s (((((s.first term c (.data d :: r :: q)).found past ret).after_recv
        (.data d) (r :: q)).copy_part 8).after_recv r q)
  /-- three parts -/
  | message {c d e : Chunk} {q : List Result} {ret : ℕ}
      (hs : s.socket = .data c :: .data d :: .data e :: q)
      (hret : strstr checkMsg ((s.first term c (.data d :: .data e :: q)).searched past)
        = some ret) :
      SocketStep term past s (show_message term (s.complete term past c d e q ret))

/-- A `recv` takes the next result. -/
theorem Main.recv_cons {s : Main} {r : Result} {q : List Result} (h : s.socket = r :: q) :
    s.recv = some (r, s.after_recv r q) := by
  simp only [Main.recv, h]

/-- After data in the first call, the branch is the search for the marker in
`recieveBuffer`, stale bytes and all. -/
theorem socket_branch_data (term past : List UInt8) {s : Main} {c : Chunk} {q : List Result}
    (hs : s.session.status = .running) (hq : s.socket = .data c :: q) :
    socket_branch term past s = scan term past (s.first term c q) := by
  have hrun : (s.first term c q).session.status = .running := client_recv_status term _ _ hs
  unfold socket_branch
  rw [Main.recv_cons hq]
  exact if_pos hrun

/-- The first `recv` of a pass tells its failures apart: a closed connection
ends the loop, an error ends the program. -/
theorem socket_branch_eof (term past : List UInt8) {s : Main} {q : List Result}
    (hq : s.socket = .eof :: q) : socket_branch term past s = (s.after_recv .eof q).leave := by
  unfold socket_branch
  rw [Main.recv_cons hq]

theorem socket_branch_error (term past : List UInt8) {s : Main} {errno : String} {q : List Result}
    (hq : s.socket = .error errno :: q) :
    socket_branch term past s
      = (s.after_recv (.error errno) q).fail ("recv(client) failed: " ++ errno ++ "\n") := by
  unfold socket_branch
  rw [Main.recv_cons hq]

/-- Where the marker is found, two more results are waited for, whatever they
hold. -/
theorem scan_found (term past : List UInt8) {s : Main} {ret : ℕ}
    (hret : strstr checkMsg (s.searched past) = some ret) :
    scan term past s = more_parts term (s.found past ret) := by
  simp only [scan, hret]
  rfl

/-- **The socket branch does one of these.** Everything about this branch is
proved from the list of outcomes, and the code is unfolded here once. -/
theorem socket_branch_step (term past : List UInt8) (s : Main) (hs : s.session.status = .running)
    (hne : s.socket ≠ []) : SocketStep term past s (socket_branch term past s) := by
  obtain ⟨r, q, hq⟩ := List.exists_cons_of_ne_nil hne
  cases r with
  | eof =>
      rw [socket_branch, Main.recv_cons hq]
      exact .closed hq rfl (by simp [Act.ofEnd])
  | error errno =>
      rw [socket_branch, Main.recv_cons hq]
      exact .closed hq rfl (by simp [Act.ofEnd])
  | data c =>
      rw [socket_branch_data term past hs hq]
      -- what comes next depends on whether the marker is anywhere in the searched memory
      cases hret : strstr checkMsg ((s.first term c q).searched past) with
      | none =>
          simp only [scan, hret]
          exact .plain hq hret
      | some ret =>
          -- the two calls that follow a hit, each with its own way to end the pass
          rw [scan_found term past hret]
          unfold more_parts
          cases q with
          | nil => exact .wait_second hq hret
          | cons r q =>
              rw [Main.recv_cons (s := (s.first term c (r :: q)).found past ret) rfl]
              cases r with
              | eof => exact .no_second hq rfl hret
              | error errno => exact .no_second hq rfl hret
              | data d =>
                  cases q with
                  | nil => exact .wait_third hq hret
                  | cons r q =>
                      simp only
                      rw [Main.recv_cons (s := (((s.first term c (.data d :: r :: q)).found past
                        ret).after_recv (.data d) (r :: q)).copy_part 8) rfl]
                      cases r with
                      | eof => exact .no_third hq rfl hret
                      | error errno => exact .no_third hq rfl hret
                      | data e => exact .message hq hret

/-- The socket branch without a marker: the data is given to the telnet layer
and that is all. -/
theorem socket_branch_plain (term past : List UInt8) {s : Main} {c : Chunk} {q : List Result}
    (hs : s.session.status = .running) (hq : s.socket = .data c :: q)
    (hnone : strstr checkMsg ((s.recieveBuffer.write 0 c.bytes).bytes ++ past) = none) :
    socket_branch term past s = s.first term c q := by
  have hret : strstr checkMsg ((s.first term c q).searched past) = none := hnone
  rw [socket_branch_data term past hs hq]
  simp only [scan, hret]

/-- The socket branch with a marker and two results to follow: the three are
glued and looked at as a message. -/
theorem socket_branch_message (term past : List UInt8) {s : Main} {c d e : Chunk}
    {q : List Result} {ret : ℕ} (hs : s.session.status = .running)
    (hq : s.socket = .data c :: .data d :: .data e :: q)
    (hret : strstr checkMsg ((s.recieveBuffer.write 0 c.bytes).bytes ++ past) = some ret) :
    socket_branch term past s = show_message term (s.complete term past c d e q ret) := by
  have hret' : strstr checkMsg ((s.first term c (.data d :: .data e :: q)).searched past)
      = some ret := hret
  rw [socket_branch_data term past hs hq, scan_found term past hret', more_parts,
    Main.recv_cons (s := (s.first term c (.data d :: .data e :: q)).found past ret) rfl]
  simp only
  rw [Main.recv_cons (s := (((s.first term c (.data d :: .data e :: q)).found past ret).after_recv
    (.data d) (.data e :: q)).copy_part 8) rfl]
  rfl

/-- What the socket branch does up to the point where a message is shown: the
telnet layer takes in `x`, the program keeps `y` to itself, and all else but the
receive side is left alone. -/
structure RecvFrame (term : List UInt8) (s s' : Main) (x y : List UInt8) : Prop where
  greenLedState : s'.greenLedState = s.greenLedState
  redLedState : s'.redLedState = s.redLedState
  stdin : s'.stdin = s.stdin
  scanfs : s'.scanfs = s.scanfs
  telnet : s'.session.telnet = (telnet_recv s.session.telnet x).1
  do_echo : s'.session.do_echo = (telnet_recv s.session.telnet x).2.foldl
    echo_after s.session.do_echo
  trace : ∃ acts, s'.session.trace = s.session.trace ++ acts ∧ (∀ a ∈ acts, a.ofRecv)
    ∧ received acts = x ++ y
    ∧ acts.filter Act.isSend = (recv_acts term s.session.telnet x).filter Act.isSend

theorem telnet_recv_nil (t : Telnet) : telnet_recv t [] = (t, []) := by
  simp [telnet_recv, process_loop, data_event]

theorem RecvFrame.refl (term : List UInt8) (s : Main) : RecvFrame term s s [] [] := by
  refine ⟨rfl, rfl, rfl, rfl, ?_, ?_, [], by simp, by simp, rfl, ?_⟩
  · rw [telnet_recv_nil]
  · rw [telnet_recv_nil]
    rfl
  · rw [recv_acts, telnet_recv_nil]
    rfl

/-- More acts of the receive side that write nothing to the socket: results, and
messages on the standard error. -/
theorem RecvFrame.note {term : List UInt8} {s s' : Main} {x y : List UInt8}
    (h : RecvFrame term s s' x y) (s'' : Main) (hg : s''.greenLedState = s'.greenLedState)
    (hr : s''.redLedState = s'.redLedState) (hstdin : s''.stdin = s'.stdin)
    (hscanfs : s''.scanfs = s'.scanfs) (ht : s''.session.telnet = s'.session.telnet)
    (he : s''.session.do_echo = s'.session.do_echo) (more : List Act)
    (htr : s''.session.trace = s'.session.trace ++ more)
    (hof : ∀ a ∈ more, a.ofRecv ∧ ¬ a.isSend) :
    RecvFrame term s s'' x (y ++ received more) := by
  obtain ⟨acts, hacts, hof', hrecv, hsend⟩ := h.trace
  refine ⟨hg.trans h.1, hr.trans h.2, hstdin.trans h.3, hscanfs.trans h.4, ht.trans h.5,
    he.trans h.6, acts ++ more, ?_, ?_, ?_, ?_⟩
  · rw [htr, hacts, List.append_assoc]
  · intro a ha
    rcases List.mem_append.mp ha with ha | ha
    · exact hof' a ha
    · exact (hof a ha).1
  · rw [received_append, hrecv, List.append_assoc]
  -- the acts that count for `Act.isSend` are those of the first chunk and stay as they were
  · have hnone : more.filter Act.isSend = [] :=
      List.filter_eq_nil_iff.mpr fun a ha => (hof a ha).2
    rw [List.filter_append, hsend, hnone, List.append_nil]

/-- A result that goes past the telnet layer. -/
theorem RecvFrame.after_recv {term : List UInt8} {s s' : Main} {x y : List UInt8}
    (h : RecvFrame term s s' x y) (r : Result) (q : List Result) :
    RecvFrame term s (s'.after_recv r q) x (y ++ r.bytes) := by
  have hnote := h.note (s'.after_recv r q) rfl rfl rfl rfl rfl rfl [.recv r] rfl
    (by simp [Act.ofRecv, Act.isSend])
  simpa [received] using hnote

/-- The first result, which goes through it. -/
theorem Main.first_frame (term : List UInt8) (s : Main) (c : Chunk) (q : List Result)
    (hs : s.session.status = .running) : RecvFrame term s (s.first term c q) c.bytes [] := by
  have hspec := client_recv_spec term (s.session.log [.recv (.data c)]) c.bytes hs
  refine ⟨rfl, rfl, rfl, rfl, ?_, ?_,
    .recv (.data c) :: recv_acts term s.session.telnet c.bytes, ?_, ?_, ?_, rfl⟩
  · simp only [Main.first]
    rw [hspec]
    rfl
  · simp only [Main.first]
    rw [hspec]
    rfl
  · simp only [Main.first]
    rw [client_recv_trace term (s.session.log _) _ hs]
    simp
  · intro a ha
    rcases List.mem_cons.mp ha with rfl | ha
    · rfl
    · exact Act.ofRecv_of_ofReply (recv_acts_ofReply term _ _ a ha)
  · change c.bytes ++ received (recv_acts term s.session.telnet c.bytes) = _
    -- the replies are written, not received, so the chunk is all that came in
    rw [received_ofReply (recv_acts_ofReply term _ _)]

theorem RecvFrame.log_halt {term : List UInt8} {s s' : Main} {x y : List UInt8}
    (h : RecvFrame term s s' x y) (acts : List Act) (ha : ∀ a ∈ acts, a.ofEnd) (status : Status) :
    RecvFrame term s ((s'.log acts).halt status) x y := by
  have hnil : received acts = [] := view_eq_nil fun a hmem => by
    have hend := ha a hmem
    cases a <;> first | rfl | cases hend
  have hnote := h.note ((s'.log acts).halt status) rfl rfl rfl rfl rfl rfl acts rfl
    (by
      intro a hmem
      have hend := ha a hmem
      cases a <;> first | exact ⟨rfl, by simp [Act.isSend]⟩ | cases hend)
  rwa [hnil, List.append_nil] at hnote

theorem RecvFrame.data {term : List UInt8} {s s' : Main} {x y : List UInt8}
    (h : RecvFrame term s s' x y) (d : CArray 512) :
    RecvFrame term s { s' with dataBuffer := d } x y := ⟨h.1, h.2, h.3, h.4, h.5, h.6, h.7⟩

theorem RecvFrame.halt {term : List UInt8} {s s' : Main} {x y : List UInt8}
    (h : RecvFrame term s s' x y) (status : Status) : RecvFrame term s (s'.halt status) x y :=
  ⟨h.1, h.2, h.3, h.4, h.5, h.6, h.7⟩

/-- All three results of a message: the first one through the telnet layer, the
other two past it. -/
theorem Main.complete_frame (term past : List UInt8) (s : Main) (c d e : Chunk) (q : List Result)
    (ret : ℕ) (hs : s.session.status = .running) :
    RecvFrame term s (s.complete term past c d e q ret) c.bytes (d.bytes ++ e.bytes) :=
  ((((((s.first_frame term c _ hs).data _).after_recv (.data d) _).data _).after_recv (.data e)
    q).data _)

/-- The program keeps bytes to itself only when the marker was found, and then
those of the next two results at most. -/
def Skipped (term past : List UInt8) (s : Main) (x y : List UInt8) : Prop :=
  y = [] ∨ ∃ c q ret, s.socket = .data c :: q ∧ x = c.bytes
    ∧ strstr checkMsg ((s.first term c q).searched past) = some ret
    ∧ y <+: (q.take 2).flatMap Result.bytes

/-- The 24 bytes glued together when the search hits at `ret` in the first
result `c` and the next two are `d` and `e`. Each part comes out of
`recieveBuffer` as it then is, so a result shorter than eight bytes leaves the
rest of its part to what was there before. -/
def Main.glued (s : Main) (past : List UInt8) (c d e : Chunk) (ret : ℕ) : List UInt8 :=
  first_part ((s.recieveBuffer.write 0 c.bytes).bytes ++ past) ret
    ++ ((s.recieveBuffer.write 0 c.bytes).write 0 d.bytes).bytes.take 8
    ++ (((s.recieveBuffer.write 0 c.bytes).write 0 d.bytes).write 0 e.bytes).bytes.take 8

theorem first_part_length (mem : List UInt8) (ret : ℕ) : (first_part mem ret).length = 8 := by
  simp [first_part]

/-- Eight bytes of each, whatever the results brought: what is missing comes
from the arrays. -/
theorem glued_length (s : Main) (past : List UInt8) (c d e : Chunk) (ret : ℕ) :
    (s.glued past c d e ret).length = 24 := by
  simp [Main.glued, first_part_length, CArray.size]

theorem reading_take (l : List UInt8) : reading (l.take 24) = reading l := by
  simp [reading]

theorem id_matches_take (l : List UInt8) : id_matches (l.take 24) ↔ id_matches l := by
  simp [id_matches]

/-- What the 24 bytes of a message show. -/
def shows (m : List UInt8) : List Reading := if id_matches m then [reading m] else []

/-- A message has been put together from three results. -/
def Assembled (past : List UInt8) (s s₁ : Main) (x y : List UInt8) : Prop :=
  ∃ c d e q ret, s.socket = .data c :: .data d :: .data e :: q
    ∧ strstr checkMsg ((s.recieveBuffer.write 0 c.bytes).bytes ++ past) = some ret
    ∧ s₁.dataBuffer.bytes.take 24 = s.glued past c d e ret
    ∧ x = c.bytes ∧ y = d.bytes ++ e.bytes

/-- What is in `dataBuffer` when the third part is there: the glue in its first
24 bytes, and behind it what was there before. -/
theorem message_data (term past : List UInt8) (s : Main) (c d e : Chunk) (q : List Result)
    (ret : ℕ) :
    (s.complete term past c d e q ret).dataBuffer.bytes.take 24 = s.glued past c d e ret := by
  have hx := first_part_length ((s.recieveBuffer.write 0 c.bytes).bytes ++ past) ret
  have hy : (((s.recieveBuffer.write 0 c.bytes).write 0 d.bytes).bytes.take 8).length = 8 := by
    rw [List.length_take, CArray.size]
    rfl
  have hz : ((((s.recieveBuffer.write 0 c.bytes).write 0 d.bytes).write 0
      e.bytes).bytes.take 8).length = 8 := by
    rw [List.length_take, CArray.size]
    rfl
  have h := s.dataBuffer.write_three_take _ _ _ (by rw [hx, hy, hz]; omega :
    (first_part ((s.recieveBuffer.write 0 c.bytes).bytes ++ past) ret).length
      + (((s.recieveBuffer.write 0 c.bytes).write 0 d.bytes).bytes.take 8).length
      + ((((s.recieveBuffer.write 0 c.bytes).write 0 d.bytes).write 0
        e.bytes).bytes.take 8).length ≤ 512)
  rw [hx, hy, hz] at h
  exact h

/-- The socket branch receives, and then perhaps shows one message. Cutting it
there separates the telnet layer from the display. -/
theorem SocketStep.split {term past : List UInt8} {s s' : Main} (h : SocketStep term past s s')
    (hs : s.session.status = .running) :
    ∃ s₁ x y, RecvFrame term s s₁ x y ∧ Skipped term past s x y
      ∧ (s' = s₁ ∨ (s₁.session.status = .running ∧ Assembled past s s₁ x y
        ∧ s' = show_message term s₁)) := by
  have hfirst : ∀ c q, RecvFrame term s (s.first term c q) c.bytes [] :=
    fun c q => s.first_frame term c q hs
  cases h with
  | @closed r q acts status hq hr ha =>
      have hframe := ((RecvFrame.refl term s).after_recv r q).log_halt acts ha status
      -- a result that is not data brought no bytes
      rw [hr] at hframe
      exact ⟨_, _, _, hframe, Or.inl rfl, Or.inl rfl⟩
  | plain => exact ⟨_, _, _, hfirst _ _, Or.inl rfl, Or.inl rfl⟩
  | wait_second => exact ⟨_, _, _, ((hfirst _ _).data _).halt _, Or.inl rfl, Or.inl rfl⟩
  | @no_second c r q ret hq hr hret =>
      have hframe := ((hfirst c (r :: q)).data
        ((s.first term c (r :: q)).found past ret).dataBuffer).after_recv r q
      rw [hr] at hframe
      exact ⟨_, _, _, hframe, Or.inl rfl, Or.inl rfl⟩
  | @wait_third c d ret hq hret =>
      -- the second part has been taken from the socket and is not seen by the telnet layer
      refine ⟨_, _, _, ((((hfirst _ _).data _).after_recv _ _).data _).halt _,
        Or.inr ⟨c, _, ret, hq, rfl, hret, ?_⟩, Or.inl rfl⟩
      simp [Result.bytes]
  | @no_third c d r q ret hq hr hret =>
      refine ⟨_, _, _, ((((hfirst _ _).data _).after_recv _ _).data _).after_recv _ _,
        Or.inr ⟨c, _, ret, hq, rfl, hret, ?_⟩, Or.inl rfl⟩
      simp [Result.bytes]
  | @message c d e q ret hq hret =>
      refine ⟨_, _, _, s.complete_frame term past c d e q ret hs,
        Or.inr ⟨c, _, ret, hq, rfl, hret, ?_⟩, Or.inr ⟨?_, ?_, rfl⟩⟩
      · simp [Result.bytes]
      · exact client_recv_status term _ _ hs
      · exact ⟨c, d, e, q, ret, hq, hret, message_data term past s c d e q ret, rfl, rfl⟩

/-- What showing a message leaves alone: all but the LED flags and the trace. -/
structure ShowFrame (s s' : Main) : Prop where
  recieveBuffer : s'.recieveBuffer = s.recieveBuffer
  stdin : s'.stdin = s.stdin
  scanfs : s'.scanfs = s.scanfs
  socket : s'.socket = s.socket
  telnet : s'.session.telnet = s.session.telnet
  do_echo : s'.session.do_echo = s.session.do_echo
  status : s'.session.status = s.session.status
  trace : ∃ acts, s'.session.trace = s.session.trace ++ acts ∧ ∀ a ∈ acts, a.ofCan

theorem ShowFrame.log {s s' : Main} (h : ShowFrame s s') (acts : List Act)
    (ha : ∀ a ∈ acts, a.ofCan) : ShowFrame s (s'.log acts) := by
  -- the acts already noted, and the new ones behind them
  obtain ⟨as, has, hof⟩ := h.trace
  refine ⟨h.1, h.2, h.3, h.4, h.5, h.6, h.7, as ++ acts, ?_, ?_⟩
  · simp [Main.log, has]
  · intro a hmem
    rcases List.mem_append.mp hmem with hmem | hmem
    · exact hof a hmem
    · exact ha a hmem

theorem ShowFrame.setLeds {s s' : Main} (h : ShowFrame s s') (green red : ℕ) :
    ShowFrame s (s'.setLeds green red) := ⟨h.1, h.2, h.3, h.4, h.5, h.6, h.7, h.8⟩

/-- Showing a message touches the LED flags and the trace, where the display and
what is sent are noted. -/
theorem show_message_frame (term : List UInt8) (s : Main) (hs : s.session.status = .running) :
    ShowFrame s (show_message term s) := by
  have hrefl : ShowFrame s s := ⟨rfl, rfl, rfl, rfl, rfl, rfl, rfl, [], by simp, by simp⟩
  have hpair : ∀ s' a b, ShowFrame s s' → Plain a → Plain b → ShowFrame s (s'.pair term a b) := by
    intro s' a b h ha hb
    rw [Main.pair_spec term s' a b (h.status.trans hs) ha hb]
    apply h.log
    intro x hx
    obtain ⟨t, _, hx⟩ := List.mem_flatMap.mp hx
    exact input_acts_ofCan _ _ x hx
  unfold show_message
  split
  · have hlcd := hrefl.log [.lcdScreen (reading s.dataBuffer.bytes)] (by simp [Act.ofCan])
    generalize s.log [.lcdScreen (reading s.dataBuffer.bytes)] = s₁ at hlcd
    -- the pair goes out on a change of side only, so there are three ways on
    unfold drive_leds
    split
    · exact (hpair s₁ _ _ hlcd green_plain.1 green_plain.2).setLeds 1 0
    split
    · exact (hpair s₁ _ _ hlcd red_plain.1 red_plain.2).setLeds 0 1
    · exact hlcd
  · exact hrefl

/-- Of what showing a message notes, the first is the call of `lcdScreen`, and
there is no other. -/
theorem show_message_trace (term : List UInt8) (s : Main) (hs : s.session.status = .running)
    (hid : id_matches s.dataBuffer.bytes) :
    ∃ acts, (show_message term s).session.trace
        = s.session.trace ++ .lcdScreen (reading s.dataBuffer.bytes) :: acts
      ∧ shown acts = [] := by
  unfold show_message
  rw [if_pos hid]
  set s₁ := s.log [.lcdScreen (reading s.dataBuffer.bytes)] with hs₁
  have htr : s₁.session.trace = s.session.trace ++ [.lcdScreen (reading s.dataBuffer.bytes)] := rfl
  have hrun : s₁.session.status = .running := hs
  unfold drive_leds
  split
  · rw [Main.setLeds_session, Main.pair_spec term s₁ _ _ hrun green_plain.1 green_plain.2]
    exact ⟨_, by rw [Main.log_session, Session.log_trace, htr, List.append_assoc]; rfl,
      shown_texts .can s₁.session.do_echo _⟩
  split
  · rw [Main.setLeds_session, Main.pair_spec term s₁ _ _ hrun red_plain.1 red_plain.2]
    exact ⟨_, by rw [Main.log_session, Session.log_trace, htr, List.append_assoc]; rfl,
      shown_texts .can s₁.session.do_echo _⟩
  · exact ⟨[], htr, rfl⟩

/-! ## One pass, and the rules for runs -/

/-- What a pass does before it comes to the socket. -/
inductive StdinStep (term : List UInt8) (s : Main) : Main → Prop
  /-- nothing to read, or the process has stopped -/
  | idle : StdinStep term s s
  /-- `poll` failed -/
  | failed (hs : s.session.status = .running) : StdinStep term s s.leave
  | branch {r : Result} {q : List Result} (pastBuffer : List UInt8)
      (hs : s.session.status = .running) (hq : s.stdin = r :: q) :
      StdinStep term s (stdin_branch term pastBuffer s)

theorem StdinStep.frame {term : List UInt8} {s s' : Main} (h : StdinStep term s s') :
    StdinFrame s s' := by
  cases h with
  | idle => exact ⟨rfl, rfl, rfl, rfl, rfl, SessionFrame.refl _⟩
  | failed =>
      refine ⟨rfl, rfl, rfl, rfl, rfl, ?_⟩
      exact ((SessionFrame.refl _).log [.telnet_free, .close] (by simp [Act.ofStdin])).halt _
  | branch pastBuffer hs => exact stdin_branch_frame term pastBuffer s hs

/-- **What one pass of the loop can do**: the stdin branch, if it runs at all,
and after it perhaps the socket branch. The order is the one of the source, and
a pass in which the first ends the program has no second. -/
theorem iteration_cases (term : List UInt8) (s : Main) (p : Poll) :
    ∃ s₁, StdinStep term s s₁ ∧ (iteration term s p = s₁
      ∨ ∃ stdin pastBuffer past, p = .ready stdin true pastBuffer past
        ∧ s₁.session.status = .running ∧ SocketStep term past s₁ (iteration term s p)) := by
  unfold iteration
  by_cases hrun : s.session.status = .running
  · rw [if_neg (by simp [hrun])]
    cases p with
    | failed => exact ⟨s.leave, .failed hrun, Or.inl rfl⟩
    | ready stdin sock pastBuffer past =>
        simp only
        -- the stdin branch runs before the socket is looked at, and may end the process
        have hstep : StdinStep term s
            (if stdin = true ∧ s.stdin ≠ [] then stdin_branch term pastBuffer s else s) := by
          split
          · next h =>
              obtain ⟨r, q, hq⟩ := List.exists_cons_of_ne_nil h.2
              exact .branch pastBuffer hrun hq
          · exact .idle
        generalize (if stdin = true ∧ s.stdin ≠ [] then stdin_branch term pastBuffer s else s)
          = s₁ at hstep
        refine ⟨s₁, hstep, ?_⟩
        split
        · next h =>
            obtain ⟨h1, rfl, h3⟩ := h
            exact Or.inr ⟨stdin, pastBuffer, past, rfl, h1, socket_branch_step term past s₁ h1 h3⟩
        · exact Or.inl rfl
  · rw [if_pos hrun]
    exact ⟨s, .idle, Or.inl rfl⟩

/-- A pass of an idle keyboard and a readable socket is the socket branch. -/
theorem iteration_socket (term pastBuffer past : List UInt8) (stdin : Bool) {s : Main}
    (hs : s.session.status = .running) (hidle : s.stdin = []) (hne : s.socket ≠ []) :
    iteration term s (.ready stdin true pastBuffer past) = socket_branch term past s := by
  unfold iteration
  simp [hs, hidle, hne]

/-- What one pass can do, with the socket branch cut at the point where a
message is shown. The invariants of a run are shown on these three parts. -/
theorem iteration_split (term : List UInt8) (s : Main) (p : Poll) :
    ∃ s₁ s₂, StdinStep term s s₁ ∧ (s₂ = s₁ ∨ ∃ x y, RecvFrame term s₁ s₂ x y)
      ∧ (iteration term s p = s₂
        ∨ (s₂.session.status = .running ∧ iteration term s p = show_message term s₂)) := by
  obtain ⟨s₁, h₁, hs' | ⟨_, _, _, _, hrun, hstep⟩⟩ := iteration_cases term s p
  · exact ⟨s₁, s₁, h₁, Or.inl rfl, Or.inl hs'⟩
  · obtain ⟨s₂, x, y, h₂, _, hs'⟩ := hstep.split hrun
    exact ⟨s₁, s₂, h₁, Or.inr ⟨x, y, h₂⟩, hs'.imp id fun ⟨hrun₂, _, heq⟩ => ⟨hrun₂, heq⟩⟩

section Invariant

variable {I : Main → Prop} (term : List UInt8) (hstdin : ∀ s s', StdinStep term s s' → I s → I s')
  (hrecv : ∀ s s' x y, RecvFrame term s s' x y → I s → I s')
  (hshow : ∀ s, s.session.status = .running → I s → I (show_message term s))

include hstdin hrecv hshow

/-- **Invariants of a pass**: kept by what comes before the socket, by
receiving, and by showing a message. An invariant is three small lemmas with
this, and never looks at the code of a branch. -/
theorem iteration_invariant (s : Main) (p : Poll) (h : I s) : I (iteration term s p) := by
  obtain ⟨s₁, s₂, h₁, h₂, h₃⟩ := iteration_split term s p
  have hI₁ : I s₁ := hstdin _ _ h₁ h
  have hI₂ : I s₂ := by
    -- no socket branch, or one that receives
    rcases h₂ with rfl | ⟨x, y, h₂⟩
    · exact hI₁
    · exact hrecv _ _ x y h₂ hI₁
  rcases h₃ with hs' | ⟨hrun, hs'⟩
  · rw [hs']
    exact hI₂
  · rw [hs']
    exact hshow _ hrun hI₂

/-- Such an invariant holds in every state of every run, by the rule for
runs. -/
theorem main_loop_invariant {s : Main} (h : I s) (polls : List Poll) :
    I (main_loop term s polls) :=
  run_invariant (iteration term) (iteration_invariant term hstdin hrecv hshow) h polls

end Invariant

/-- Nothing is ever taken back from the trace, so what was shown or sent stays
so. -/
theorem iteration_trace (term : List UInt8) (s : Main) (p : Poll) :
    s.session.trace <+: (iteration term s p).session.trace := by
  refine iteration_invariant term (I := fun s' => s.session.trace <+: s'.session.trace)
    ?_ ?_ ?_ s p List.prefix_rfl
  · intro s₁ s₂ hstep h
    obtain ⟨acts, htr, _⟩ := hstep.frame.session.trace
    rw [htr]
    exact h.trans (List.prefix_append ..)
  · intro s₁ s₂ x y hframe h
    obtain ⟨acts, htr, _⟩ := hframe.trace
    rw [htr]
    exact h.trans (List.prefix_append ..)
  · intro s₁ hs h
    obtain ⟨acts, htr, _⟩ := (show_message_frame term s₁ hs).trace
    rw [htr]
    exact h.trans (List.prefix_append ..)

/-- The first part of a message, for the concrete runs. -/
def opening : Chunk := ⟨ascii "RX2abc10", by decide, by decide⟩

/-- A part of a message, or what follows one. -/
def zeros : Chunk := ⟨ascii "00000000", by decide, by decide⟩

/-- A message with speed 0, in three parts of eight bytes. -/
def standing : List Result := [.data opening, .data zeros, .data zeros]

end AutoMag.Client
