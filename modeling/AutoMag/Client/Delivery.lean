/-
`Client/Delivery.lean` -- the delivery the socket branch is written for.

Every message comes as a recv result of eight bytes that begins with the marker, two
more of eight bytes, and then results of up to eight that belong to no message. The
one thing to carry along is what is left in `recieveBuffer` between passes: eight
bytes without an `R`, and zeros. So the search finds the marker in a first part and
nowhere else, and the loop is in step with the sender from the first first part on,
whatever came before it.
-/
import AutoMag.Client.Leds
import AutoMag.Client.Readings

set_option autoImplicit false

namespace AutoMag.Client

open AutoMag.CMemory AutoMag.Libtelnet AutoMag.Machine

/-! ## What is delivered -/

/-- A recv result of at most eight bytes, no `R` among them. -/
structure Piece where
  chunk : Chunk
  le : chunk.bytes.length ≤ 8
  no_R : chr 'R' ∉ chunk.bytes

/-- A message: three results of eight bytes, the first beginning with the
marker, and further pieces. Whether the first part holds another `R` does not
matter. -/
structure Message where
  first : Chunk
  second : Piece
  third : Piece
  more : List Piece
  first_length : first.bytes.length = 8
  marker : checkMsg <+: first.bytes
  second_length : second.chunk.bytes.length = 8
  third_length : third.chunk.bytes.length = 8

/-- The recv results of a message. -/
def Message.results (m : Message) : List Result :=
  .data m.first :: .data m.second.chunk :: .data m.third.chunk
    :: m.more.map fun p => .data p.chunk

/-- Its 24 bytes. -/
def Message.bytes (m : Message) : List UInt8 :=
  m.first.bytes ++ m.second.chunk.bytes ++ m.third.chunk.bytes

/-- What is to be shown of it: nothing unless bytes 6 and 7 are `1` and `0`, and
then the values of bytes 9 and 10, 18, and 21 and 22. -/
def Message.shows (m : Message) : List Reading :=
  if m.bytes.getD 6 0 = chr '1' ∧ m.bytes.getD 7 0 = chr '0' then
    [{ speed := 16 * htoi (m.bytes.getD 9 0) + htoi (m.bytes.getD 10 0)
       fuel := htoi (m.bytes.getD 18 0)
       temperature := 16 * htoi (m.bytes.getD 21 0) + htoi (m.bytes.getD 22 0) }]
  else []

theorem Message.shows_eq (m : Message) :
    m.shows = Client.shows m.bytes := by
  have hread : reading m.bytes
      = { speed := 16 * htoi (m.bytes.getD 9 0) + htoi (m.bytes.getD 10 0)
          fuel := htoi (m.bytes.getD 18 0)
          temperature := 16 * htoi (m.bytes.getD 21 0) + htoi (m.bytes.getD 22 0) } := by
    simp only [reading, Nat.shiftLeft_eq, Reading.mk.injEq, true_and]
    constructor
    · omega
    · omega
  rw [Client.shows, hread]
  rfl

/-! ## `recieveBuffer` between passes -/

/-- Eight bytes without an `R`, and zeros. -/
structure Quiet (b : CArray 512) : Prop where
  no_R : chr 'R' ∉ b.bytes.take 8
  zeros : b.bytes.drop 8 = List.replicate 504 0

theorem quiet_zero : Quiet (.fill 512 0) := by
  refine ⟨?_, ?_⟩
  · rw [CArray.fill, List.take_replicate]
    intro hmem
    exact absurd (List.eq_of_mem_replicate hmem) (by decide)
  · rw [CArray.fill, List.drop_replicate]

/-- A short result does not reach the zeros behind the first eight bytes. -/
theorem drop_write (b : CArray 512) {bs : List UInt8} (h : bs.length ≤ 8) :
    (b.write 0 bs).bytes.drop 8 = b.bytes.drop 8 := by
  rw [b.write_zero_bytes bs (by omega), List.drop_append, List.drop_eq_nil_of_le h, List.nil_append,
    List.drop_drop]
  congr 1
  omega

/-- A piece on top of a quiet buffer leaves it quiet: it has no marker in it,
and ends before the zeros. -/
theorem Quiet.write {b : CArray 512} (h : Quiet b) (p : Piece) :
    Quiet (b.write 0 p.chunk.bytes) := by
  refine ⟨?_, (drop_write b p.le).trans h.zeros⟩
  rw [b.write_zero_bytes _ p.chunk.le, List.take_append, List.take_of_length_le p.le]
  intro hmem
  rcases List.mem_append.mp hmem with hmem | hmem
  · exact p.no_R hmem
  · -- what is left of the eight bytes was there before
    rw [List.take_drop] at hmem
    have hp := p.le
    refine h.no_R (List.mem_of_mem_drop ?_ (i := p.chunk.bytes.length))
    rwa [Nat.add_sub_cancel' hp] at hmem

/-- In a quiet buffer the search finds nothing, whatever is behind it, for it
ends at the first NUL. -/
theorem Quiet.strstr {b : CArray 512} (h : Quiet b) (past : List UInt8) :
    strstr checkMsg (b.bytes ++ past) = none := by
  -- a NUL behind the eight bytes ends the search, so what is behind the array is not seen
  have hmem : b.bytes ++ past = b.bytes.take 8 ++ 0 :: (List.replicate 503 0 ++ past) := by
    conv_lhs => rw [← List.take_append_drop 8 b.bytes, h.zeros, List.append_assoc]
    rfl
  rw [hmem]
  have hnone : CMemory.strstr (chr 'R' :: ascii "X2")
      (b.bytes.take 8 ++ 0 :: (List.replicate 503 0 ++ past)) = none :=
    strstr_append_nul h.no_R (by decide)
  exact hnone

/-- In a first part it finds the marker in front. -/
theorem Message.strstr (m : Message) (b : CArray 512) (past : List UInt8) :
    CMemory.strstr checkMsg ((b.write 0 m.first.bytes).bytes ++ past) = some 0 := by
  rw [b.write_zero_bytes _ m.first.le, List.append_assoc]
  exact strstr_eq_zero (m.marker.trans (List.prefix_append ..))

/-- After a whole message the buffer is quiet again: the third part lies over
the marker of the first. -/
theorem Message.quiet (m : Message) {b : CArray 512} (h : Quiet b) :
    Quiet (((b.write 0 m.first.bytes).write 0 m.second.chunk.bytes).write 0
      m.third.chunk.bytes) := by
  refine ⟨?_, ?_⟩
  -- the eight bytes in front are the third part
  · rw [take_write _ m.third_length.ge m.third.chunk.le]
    intro hmem
    exact m.third.no_R (List.mem_of_mem_take hmem)
  · rw [drop_write _ m.third.le, drop_write _ m.second.le, drop_write _ m.first_length.le]
    exact h.zeros

theorem Message.glued (m : Message) (s : Main) (past : List UInt8) :
    s.glued past m.first m.second.chunk m.third.chunk 0 = m.bytes := by
  rw [glued_eq s past _ _ _ (by rw [m.first_length]) m.second_length m.third_length.ge,
    List.drop_zero, List.take_of_length_le m.third_length.le, Message.bytes]

/-! ## One pass -/

/-- In step with the sender: `pieces` and then `msgs` are still to come, and all
that was to be shown so far has been. -/
structure InStep (all : List Reading) (s : Main) (pieces : List Piece) (msgs : List Message) :
    Prop extends LedInv s where
  running : s.session.status = .running
  idle : s.stdin = []
  socket : s.socket = (pieces.map fun p => .data p.chunk) ++ msgs.flatMap Message.results
  quiet : Quiet s.recieveBuffer
  shown : shown s.session.trace ++ msgs.flatMap Message.shows = all
  typed : inputs .stdin s.session.trace = []

/-- Receiving and showing nothing. -/
theorem InStep.received {all : List Reading} {term : List UInt8} {s s' : Main} {x y : List UInt8}
    {pieces : List Piece} {msgs : List Message} (h : InStep all s pieces msgs)
    (hframe : RecvFrame term s s' x y) :
    LedInv s' ∧ s'.stdin = [] ∧ Client.shown s'.session.trace = Client.shown s.session.trace
      ∧ inputs .stdin s'.session.trace = [] := by
  obtain ⟨acts, htr, hof, _⟩ := hframe.trace
  refine ⟨h.toLedInv.recv hframe, hframe.stdin.trans h.idle, ?_, ?_⟩
  · rw [htr, shown_append, shown_ofRecv hof, List.append_nil]
  · rw [htr, inputs_append, h.typed, inputs_ofRecv .stdin hof, List.append_nil]

/-- A piece is received and shows nothing, and the buffer stays quiet for the
next one. -/
theorem InStep.piece {all : List Reading} {s : Main} {p : Piece} {pieces : List Piece}
    {msgs : List Message} (h : InStep all s (p :: pieces) msgs) (term past : List UInt8) :
    InStep all (socket_branch term past s) pieces msgs := by
  have hquiet := h.quiet.write p
  rw [socket_branch_plain term past h.running h.socket (hquiet.strstr past)]
  obtain ⟨hled, hidle, hshown, htyped⟩ := h.received (s.first_frame term p.chunk _ h.running)
  refine ⟨hled, client_recv_status term _ _ h.running, hidle, rfl, hquiet, ?_, htyped⟩
  rw [hshown]
  exact h.shown

/-- A message is received whole, and shown if it has the ID. -/
theorem InStep.message {all : List Reading} {s : Main} {m : Message} {msgs : List Message}
    (h : InStep all s [] (m :: msgs)) (term past : List UInt8) :
    InStep all (socket_branch term past s) m.more msgs := by
  have hsocket : s.socket = .data m.first :: .data m.second.chunk :: .data m.third.chunk
      :: ((m.more.map fun p => Result.data p.chunk) ++ msgs.flatMap Message.results) := h.socket
  rw [socket_branch_message term past h.running hsocket (m.strstr s.recieveBuffer past)]
  have htaken := h.toLedInv.taken h.running term past m.first m.second.chunk m.third.chunk
    ((m.more.map fun p => Result.data p.chunk) ++ msgs.flatMap Message.results) 0
  refine ⟨htaken.toLedInv, htaken.running, htaken.stdin.trans h.idle, htaken.socket, ?_, ?_,
    htaken.typed.trans h.typed⟩
  · rw [htaken.recieveBuffer]
    exact m.quiet h.quiet
  · rw [htaken.shown, m.glued s past, ← m.shows_eq, List.append_assoc]
    exact h.shown

/-! ## Whole runs -/

/-- The socket is readable. -/
def Poll.readable : Poll → Bool
  | .ready _ sock _ _ => sock
  | .failed => false

/-- The passes it takes to receive what is to come. -/
def passes (pieces : List Piece) (msgs : List Message) : ℕ :=
  pieces.length + msgs.foldr (fun m n => m.more.length + 1 + n) 0

/-- A pass with the socket readable receives a piece or a message; any other
leaves everything as it is. -/
theorem InStep.pass {all : List Reading} {s : Main} {pieces : List Piece} {msgs : List Message}
    (h : InStep all s pieces msgs) (term : List UInt8) {p : Poll} (hp : p ≠ .failed) :
    ∃ pieces' msgs', InStep all (iteration term s p) pieces' msgs'
      ∧ passes pieces' msgs' = passes pieces msgs - if p.readable then 1 else 0 := by
  cases p with
  | failed => exact absurd rfl hp
  | ready stdin sock pastBuffer past =>
      -- stdin has nothing, so without the socket the pass does nothing
      have hwait : (sock = false ∨ s.socket = []) →
          iteration term s (.ready stdin sock pastBuffer past) = s := by
        rintro (hsock | hsock)
        · simp [iteration, h.running, h.idle, hsock]
        · simp [iteration, h.running, h.idle, hsock]
      cases sock with
      | false =>
          rw [hwait (Or.inl rfl)]
          exact ⟨pieces, msgs, h, rfl⟩
      | true =>
          -- what comes next: nothing any more, a message, or a piece of what belongs to none
          match pieces, msgs, h with
          | [], [], h =>
              rw [hwait (Or.inr h.socket)]
              exact ⟨[], [], h, rfl⟩
          | [], m :: msgs, h =>
              rw [iteration_socket term pastBuffer past stdin h.running h.idle
                (by rw [h.socket]; simp [Message.results])]
              refine ⟨m.more, msgs, h.message term past, ?_⟩
              simp [passes, Poll.readable]
          | p :: pieces, msgs, h =>
              rw [iteration_socket term pastBuffer past stdin h.running h.idle
                (by rw [h.socket]; simp)]
              refine ⟨pieces, msgs, h.piece term past, ?_⟩
              simp [passes, Poll.readable]

theorem InStep.run {all : List Reading} (term : List UInt8) (polls : List Poll) : ∀ {s : Main}
    {pieces : List Piece} {msgs : List Message}, InStep all s pieces msgs →
    (∀ p ∈ polls, p ≠ .failed) →
    ∃ pieces' msgs', InStep all (main_loop term s polls) pieces' msgs'
      ∧ passes pieces' msgs' = passes pieces msgs - polls.countP Poll.readable := by
  induction polls with
  | nil =>
      intro s pieces msgs h _
      exact ⟨pieces, msgs, h, rfl⟩
  | cons p polls ih =>
      intro s pieces msgs h hp
      -- each pass with the socket readable takes one off the number of passes still needed
      obtain ⟨pieces₁, msgs₁, h₁, hn₁⟩ := h.pass term (hp p (List.mem_cons_self ..))
      obtain ⟨pieces₂, msgs₂, h₂, hn₂⟩ := ih h₁ fun p' h' => hp p' (List.mem_cons_of_mem _ h')
      refine ⟨pieces₂, msgs₂, h₂, ?_⟩
      rw [hn₂, hn₁, List.countP_cons]
      omega

/-- **In step with the sender.** Any pieces and then any messages, each a recv
result of its own, an idle keyboard, and the socket readable often enough: every
message with the ID is shown once, in order, with its values, and nothing else
is; and the LED commands are a pair at the first one and a pair at each later
one on the other side. -/
theorem messages_shown (term : List UInt8) (b d : CArray 512) (scanfs : List (Option Int32))
    (pieces : List Piece) (msgs : List Message) (polls : List Poll)
    (hpolls : ∀ p ∈ polls, p ≠ .failed)
    (hready : passes pieces msgs ≤ polls.countP Poll.readable) :
    let s := main_loop term (Main.start b (.fill 512 0) d [] scanfs
      ((pieces.map fun p => .data p.chunk) ++ msgs.flatMap Message.results)) polls
    s.socket = [] ∧ s.session.status = .running
      ∧ shown s.session.trace = msgs.flatMap Message.shows
      ∧ inputs .can s.session.trace = (led_commands none (msgs.flatMap Message.shows)).map ascii
      ∧ inputs .stdin s.session.trace = [] := by
  intro s
  have hstart : InStep (msgs.flatMap Message.shows) (Main.start b (.fill 512 0) d [] scanfs
      ((pieces.map fun p => .data p.chunk) ++ msgs.flatMap Message.results)) pieces msgs :=
    ⟨led_inv_start b _ d [] scanfs _, rfl, rfl, rfl, quiet_zero, rfl, rfl⟩
  obtain ⟨pieces', msgs', hend, hn⟩ := InStep.run term polls hstart hpolls
  -- enough passes, so nothing is left to receive
  have hzero : passes pieces' msgs' = 0 := by omega
  have hpieces : pieces' = [] := List.length_eq_zero_iff.mp (by unfold passes at hzero; omega)
  have hmsgs : msgs' = [] := by
    cases msgs' with
    | nil => rfl
    | cons m msgs' =>
        simp [passes] at hzero
  subst hpieces hmsgs
  have hshown : shown s.session.trace = msgs.flatMap Message.shows := by
    simpa using hend.shown
  refine ⟨hend.socket, hend.running, hshown, ?_, hend.typed⟩
  rw [← hshown]
  exact hend.commands

/-- The tail of a message that was under way. -/
def sample_piece : Piece where
  chunk := ⟨ascii "0123", by decide, by decide⟩
  le := by decide
  no_R := by decide

/-- A message with speed 64, fuel 5 and temperature 90. -/
def sample_message : Message where
  first := ⟨ascii "RX2 0010", by decide, by decide⟩
  second := ⟨⟨ascii " 40 0000", by decide, by decide⟩, by decide, by decide⟩
  third := ⟨⟨ascii " 05  5A ", by decide, by decide⟩, by decide, by decide⟩
  more := []
  first_length := by decide
  marker := by decide
  second_length := by decide
  third_length := by decide

/-- The two of them, with the socket readable twice. -/
theorem messages_shown_sample :
    (∀ p ∈ [Poll.ready false true [] [], .ready false true [] []], p ≠ .failed)
    ∧ passes [sample_piece] [sample_message]
      ≤ [Poll.ready false true [] [], .ready false true [] []].countP Poll.readable
    ∧ shown (main_loop [] (Main.start (.fill 512 0) (.fill 512 0) (.fill 512 0) [] []
        ([sample_piece].map (fun p => .data p.chunk) ++ [sample_message].flatMap Message.results))
        [.ready false true [] [], .ready false true [] []]).session.trace = [⟨64, 5, 90⟩] := by
  have hpolls : ∀ p ∈ [Poll.ready false true [] [], .ready false true [] []], p ≠ .failed := by
    decide
  have hready : passes [sample_piece] [sample_message]
      ≤ [Poll.ready false true [] [], .ready false true [] []].countP Poll.readable := by decide
  have hshows : [sample_message].flatMap Message.shows = [⟨64, 5, 90⟩] := by decide
  refine ⟨hpolls, hready, ?_⟩
  rw [← hshows]
  exact (messages_shown [] (.fill 512 0) (.fill 512 0) [] [sample_piece] [sample_message] _ hpolls
    hready).2.2.1

end AutoMag.Client
