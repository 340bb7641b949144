/-
`Client/Segments.lean` -- readings and the way the stream is delivered.

What the program is for: `messages` reads the data a stream carries byte by byte, waits
for the marker, takes the 24 bytes from there on, and goes on behind them. That is a
feed over a feed, so neither the cut of the stream into recv results nor a complete
telnet command in it makes a difference. What the program does is something else: one
search per pass, on raw bytes, and two more results taken blindly. The two agree in a
run in which every message is delivered the way the program expects it, and so two
such runs over the same data agree with each other.
-/
import AutoMag.Client.Leds
import AutoMag.Client.Readings
import AutoMag.Libtelnet.Data

set_option autoImplicit false

namespace AutoMag.Client

open AutoMag.CMemory AutoMag.Libtelnet AutoMag.Machine

/-! ## The messages of a stream of data -/

/-- One byte of data. Kept is the part of the marker, or of the message, that
has come so far. -/
def scan_step (part : List UInt8) (b : UInt8) : List UInt8 × List Reading :=
  if part.length < 3 then
    -- the marker goes on, or begins again at this byte, or not
    if (part ++ [b]).isPrefixOf checkMsg then (part ++ [b], [])
    else if b = chr 'R' then ([b], [])
    else ([], [])
  else if part.length < 23 then (part ++ [b], [])
  -- the 24th byte
  else ([], if id_matches (part ++ [b]) then [reading (part ++ [b])] else [])

/-- The readings in a stream of data. -/
def messages (bytes : List UInt8) : List Reading := (feed scan_step [] bytes).2

/-- A proper part of the marker. -/
def MarkerPart (part : List UInt8) : Prop := part = [] ∨ part = ascii "R" ∨ part = ascii "RX"

/-- One byte that does not complete the marker: what is kept is the longest part
of the marker that the data ends in. -/
theorem scan_marker {part : List UInt8} (h : MarkerPart part) (b : UInt8)
    (hb : part ++ [b] ≠ checkMsg) : ∃ part', scan_step part b = (part', []) ∧ MarkerPart part'
      ∧ part' <:+ part ++ [b] := by
  by_cases hr : b = chr 'R'
  · refine ⟨[b], ?_, Or.inr (Or.inl (by rw [hr]; rfl)), List.suffix_append _ _⟩
    rcases h with rfl | rfl | rfl <;> subst hr <;> decide
  · by_cases hx : part = ascii "R" ∧ b = chr 'X'
    · obtain ⟨rfl, rfl⟩ := hx
      exact ⟨ascii "RX", by decide, Or.inr (Or.inr rfl), List.suffix_refl _⟩
    · refine ⟨[], ?_, Or.inl rfl, List.nil_suffix⟩
      have hnot : ¬ (part ++ [b]).isPrefixOf checkMsg := by
        rcases h with rfl | rfl | rfl
        · simpa [List.isPrefixOf, checkMsg, ascii, chr] using hr
        · simpa [List.isPrefixOf, checkMsg, ascii, chr] using hx
        · simpa [List.isPrefixOf, checkMsg, ascii, chr] using hb
      have hlen : part.length < 3 := by rcases h with rfl | rfl | rfl <;> decide
      rw [scan_step, if_pos hlen, if_neg hnot, if_neg hr]

/-- Data without the marker shows nothing, and leaves at most a beginning of
one. -/
theorem scan_quiet (bytes : List UInt8) : ∀ {part : List UInt8}, MarkerPart part →
    ¬ checkMsg <:+: part ++ bytes →
    ∃ part', feed scan_step part bytes = (part', []) ∧ MarkerPart part' := by
  induction bytes with
  | nil =>
      intro part h _
      exact ⟨part, rfl, h⟩
  | cons b bytes ih =>
      intro part h hno
      have hsplit : part ++ b :: bytes = part ++ [b] ++ bytes := by simp
      rw [hsplit] at hno
      have hb : part ++ [b] ≠ checkMsg := by
        intro heq
        rw [heq] at hno
        exact hno (List.infix_append [] checkMsg bytes)
      obtain ⟨part₁, hstep, hpart₁, hsuf⟩ := scan_marker h b hb
      obtain ⟨part₂, hfeed, hpart₂⟩ := ih hpart₁ fun hin => by
        -- the part kept is an end of what was read, so it brings no marker that was not there
        obtain ⟨pre, hpre⟩ := hsuf
        refine hno (hin.trans ⟨pre, [], ?_⟩)
        rw [List.append_nil, ← hpre, List.append_assoc]
      refine ⟨part₂, ?_, hpart₂⟩
      rw [feed_cons, hstep, hfeed]
      rfl

/-- The rest of a message is collected, whatever bytes it has. -/
theorem scan_collect (bytes : List UInt8) : ∀ {part : List UInt8}, 3 ≤ part.length →
    part.length + bytes.length ≤ 23 → feed scan_step part bytes = (part ++ bytes, []) := by
  induction bytes with
  | nil =>
      intro part _ _
      rw [feed_nil, List.append_nil]
  | cons b bytes ih =>
      intro part h3 h23
      rw [List.length_cons] at h23
      have hstep : scan_step part b = (part ++ [b], []) := by
        rw [scan_step, if_neg (by omega), if_pos (by omega)]
      rw [feed_cons, hstep, ih (by simp; omega) (by simp; omega)]
      simp

/-- Up to 23 bytes from the marker on: the scanner has all of them and is
waiting for more. -/
theorem scan_first {part first : List UInt8} (h : MarkerPart part) (hmark : checkMsg <+: first)
    (hlen : first.length ≤ 23) : feed scan_step part first = (first, []) := by
  obtain ⟨rest, rfl⟩ := hmark
  -- whatever part of a marker is under way, an `R` starts over
  have hthree : feed scan_step part checkMsg = (checkMsg, []) := by
    rcases h with rfl | rfl | rfl <;> decide
  have hc : checkMsg.length = 3 := rfl
  rw [List.length_append] at hlen
  rw [feed_append, hthree, scan_collect rest (by rw [hc]) hlen]
  rfl

/-- A whole message, after which the scanner starts afresh. -/
theorem scan_message {part m : List UInt8} (h : MarkerPart part) (hmark : checkMsg <+: m)
    (hlen : m.length = 24) : feed scan_step part m = ([], shows m) := by
  rcases m.eq_nil_or_concat with rfl | ⟨front, b, rfl⟩
  · cases hlen
  · rw [List.concat_eq_append] at hmark ⊢
    have hfront : front.length = 23 := by simpa using hlen
    have hmark' : checkMsg <+: front := by
      apply List.prefix_of_prefix_length_le hmark (List.prefix_append ..)
      rw [hfront]
      decide
    have hstep : scan_step front b = ([], shows (front ++ [b])) := by
      rw [scan_step, if_neg (by omega), if_neg (by omega)]
      rfl
    rw [feed_append, scan_first h hmark' hfront.le, feed_cons, hstep]
    simp

/-! ## The data received -/

/-- The data a stream from the server carries. -/
def payload (stream : List UInt8) : List UInt8 := data Session.start.telnet stream

/-- The parser of the data after a stream. -/
def parsed (stream : List UInt8) : Telnet × Bool :=
  (feed data_step (Session.start.telnet, false) stream).1

/-- The data further bytes bring. -/
def brings (stream more : List UInt8) : List UInt8 := (feed data_step (parsed stream) more).2

/-- The part of a marker or a message at the end of the data of a stream. -/
def under_way (stream : List UInt8) : List UInt8 := (feed scan_step [] (payload stream)).1

theorem payload_append (stream more : List UInt8) :
    payload (stream ++ more) = payload stream ++ brings stream more := data_append _ _ _

theorem parsed_append (stream more : List UInt8) :
    parsed (stream ++ more) = (feed data_step (parsed stream) more).1 := by
  rw [parsed, feed_append]
  rfl

/-- The data of two parts of a stream, the second parsed from where the first
has left off. -/
theorem brings_append (stream as bs : List UInt8) :
    brings stream (as ++ bs) = brings stream as ++ brings (stream ++ as) bs := by
  rw [brings, feed_append, brings, brings, parsed_append]

theorem under_way_append (stream more : List UInt8) :
    under_way (stream ++ more)
      = (feed scan_step (under_way stream) (brings stream more)).1 := by
  rw [under_way, payload_append, feed_append]
  rfl

/-- The messages of a stream that goes on: those it had, and those completed by
the new data. -/
theorem messages_append (stream more : List UInt8) :
    messages (payload (stream ++ more)) = messages (payload stream)
      ++ (feed scan_step (under_way stream) (brings stream more)).2 := by
  rw [messages, payload_append, feed_append]
  rfl

/-- Bytes without IAC, between two data bytes, are data. The second and third
part of a message go past the telnet layer, and this is where that makes no
difference. -/
theorem brings_plain {stream more : List UInt8} (h : Between Session.start.telnet stream)
    (hiac : TELNET_IAC ∉ more) :
    brings stream more = more ∧ Between Session.start.telnet (stream ++ more) := by
  have hfeed : feed data_step (parsed stream) more = (parsed stream, more) := feed_data_plain h hiac
  refine ⟨by rw [brings, hfeed], ?_⟩
  have heq : parsed (stream ++ more) = parsed stream := by rw [parsed_append, hfeed]
  rw [Between, ← parsed, heq]
  exact h

/-! ## The delivery the program expects -/

/-- A result with nothing of a message: its data brings no marker, and the
search does not find one either. -/
structure Aside (s : Main) (past : List UInt8) (r : Result) : Prop where
  no_marker : ¬ checkMsg <:+: under_way (received s.session.trace)
    ++ brings (received s.session.trace) r.bytes
  unseen : ∀ c, r = .data c →
    strstr checkMsg ((s.recieveBuffer.write 0 c.bytes).bytes ++ past) = none

/-- The rest of a message, or as much of it as there is: eight bytes of data,
and eight or more with no marker behind them. -/
inductive Follows : List Result → Prop
  | none : Follows []
  | second {d : Chunk} (hlen : d.bytes.length = 8) (hiac : TELNET_IAC ∉ d.bytes) :
      Follows [.data d]
  | third {d e : Chunk} {q : List Result} (hlen : d.bytes.length = 8)
      (hiac : TELNET_IAC ∉ d.bytes) (hlen' : 8 ≤ e.bytes.length) (hiac' : TELNET_IAC ∉ e.bytes)
      (hno : ¬ checkMsg <:+: e.bytes.drop 8) : Follows (.data d :: .data e :: q)

/-- A result that ends with the first eight bytes of a message, with no marker
in what it brings before them; the search finds these eight, and the rest of the
message follows. -/
structure Opens (s : Main) (past : List UInt8) (c : Chunk) (q : List Result)
    (pre first : List UInt8) : Prop where
  bytes : c.bytes = pre ++ first
  length_eq : first.length = 8
  marker : checkMsg <+: first
  plain : TELNET_IAC ∉ first
  between : Between Session.start.telnet (received s.session.trace ++ pre)
  no_marker : ¬ checkMsg <:+: under_way (received s.session.trace)
    ++ brings (received s.session.trace) pre
  seen : strstr checkMsg ((s.recieveBuffer.write 0 c.bytes).bytes ++ past) = some pre.length
  follows : Follows q

/-- In this pass, what is received has nothing of a message, or is a message as
the program expects it. -/
def Expected (s : Main) : Poll → Prop
  | .ready _ true _ past => ∀ r q, s.socket = r :: q →
      Aside s past r ∨ ∃ c pre first, r = .data c ∧ Opens s past c q pre first
  | _ => True

/-! ## One pass -/

/-- What has been shown is what the data received so far says. -/
structure Following (s : Main) : Prop extends LedInv s where
  idle : s.stdin = []
  shown : shown s.session.trace = messages (payload (received s.session.trace))
  marker_part : s.session.status = .running → MarkerPart (under_way (received s.session.trace))

/-- Receiving what completes no message: the display stays, and the data says
nothing new. -/
theorem Following.recv {s s' : Main} (h : Following s) {term x y p : List UInt8}
    (hframe : RecvFrame term s s' x y)
    (hscan : feed scan_step (under_way (received s.session.trace))
      (brings (received s.session.trace) (x ++ y)) = (p, []))
    (hpart : s'.session.status = .running → MarkerPart p) : Following s' := by
  obtain ⟨acts, htr, hof, hxy, _⟩ := hframe.trace
  refine ⟨h.toLedInv.recv hframe, hframe.stdin.trans h.idle, ?_, fun hrun => ?_⟩
  · rw [htr, shown_append, shown_ofRecv hof, received_append, hxy, messages_append, hscan, h.shown]
  · rw [htr, received_append, hxy, under_way_append, hscan]
    exact hpart hrun

/-- The scanner over a result that opens a message and plain data after it. -/
theorem Opens.scan {s : Main} {past : List UInt8} {c : Chunk} {q : List Result}
    {pre first : List UInt8} (ho : Opens s past c q pre first)
    (hpart : MarkerPart (under_way (received s.session.trace))) :
    ∃ part, MarkerPart part ∧ ∀ y, TELNET_IAC ∉ y →
      feed scan_step (under_way (received s.session.trace))
        (brings (received s.session.trace) (c.bytes ++ y)) = feed scan_step part (first ++ y) := by
  -- first the data before the message, then the message as it is
  obtain ⟨part, hquiet, hpart'⟩ := scan_quiet _ hpart ho.no_marker
  refine ⟨part, hpart', fun y hy => ?_⟩
  have hplain : TELNET_IAC ∉ first ++ y := by
    simp only [List.mem_append, not_or]
    exact ⟨ho.plain, hy⟩
  rw [ho.bytes, List.append_assoc, brings_append, (brings_plain ho.between hplain).1, feed_append,
    hquiet]
  rfl

/-- The 24 bytes of a message, and what comes with the last of them, which may
hold no marker. -/
theorem scan_three {part first d e : List UInt8} (hpart : MarkerPart part)
    (hmark : checkMsg <+: first) (hfirst : first.length = 8) (hd : d.length = 8)
    (he : 8 ≤ e.length) (hno : ¬ checkMsg <:+: e.drop 8) :
    ∃ part', MarkerPart part'
      ∧ feed scan_step part (first ++ (d ++ e)) = (part', shows (first ++ d ++ e.take 8)) := by
  have hsplit : first ++ (d ++ e) = first ++ d ++ e.take 8 ++ e.drop 8 := by
    simp only [List.append_assoc, List.take_append_drop]
  have hlen : (first ++ d ++ e.take 8).length = 24 := by
    simp only [List.length_append, List.length_take]
    omega
  have hmark' : checkMsg <+: first ++ d ++ e.take 8 := by
    rw [List.append_assoc]
    exact hmark.trans (List.prefix_append ..)
  obtain ⟨part', hquiet, hpart'⟩ := scan_quiet (e.drop 8) (Or.inl rfl : MarkerPart []) hno
  refine ⟨part', hpart', ?_⟩
  rw [hsplit, feed_append, scan_message hpart hmark' hlen, hquiet]
  simp

/-- A message, received whole: the display shows it, and so does the data. -/
theorem Following.message {s : Main} (h : Following s) (hrun : s.session.status = .running)
    (term : List UInt8) {past : List UInt8} {c d e : Chunk} {q : List Result}
    {pre first : List UInt8} (ho : Opens s past c (.data d :: .data e :: q) pre first)
    (hd : d.bytes.length = 8) (hdi : TELNET_IAC ∉ d.bytes) (he : 8 ≤ e.bytes.length)
    (hei : TELNET_IAC ∉ e.bytes) (hno : ¬ checkMsg <:+: e.bytes.drop 8) :
    Following (show_message term (s.complete term past c d e q pre.length)) := by
  have htaken := h.toLedInv.taken hrun term past c d e q pre.length
  have hlen : pre.length + 8 = c.bytes.length := by
    rw [ho.bytes, List.length_append, ho.length_eq]
  -- what the program puts together is what the scanner collects
  have hglued : s.glued past c d e pre.length = first ++ d.bytes ++ e.bytes.take 8 := by
    rw [glued_eq s past c d e hlen hd he, ho.bytes, List.drop_left]
  obtain ⟨part, hpart, hscan⟩ := ho.scan (h.marker_part hrun)
  obtain ⟨part', hpart', hthree⟩ := scan_three hpart ho.marker ho.length_eq hd he hno
  have hy : TELNET_IAC ∉ d.bytes ++ e.bytes := by
    simp only [List.mem_append, not_or]
    exact ⟨hdi, hei⟩
  have hfeed := (hscan _ hy).trans hthree
  refine ⟨htaken.toLedInv, htaken.stdin.trans h.idle, ?_, fun _ => ?_⟩
  · rw [htaken.shown, hglued, htaken.received, messages_append, hfeed, h.shown]
  · rw [htaken.received, under_way_append, hfeed]
    exact hpart'

/-- **A pass that receives as expected keeps the display in step with the
data**: it puts the result aside, or takes a message whole, or ends. -/
theorem Following.socket {s s' : Main} (h : Following s) (hrun : s.session.status = .running)
    {term past : List UInt8} (hstep : SocketStep term past s s')
    (hexp : ∀ r q, s.socket = r :: q →
      Aside s past r ∨ ∃ c pre first, r = .data c ∧ Opens s past c q pre first) :
    Following s' := by
  have hpart := h.marker_part hrun
  have hfirst : ∀ c q, RecvFrame term s (s.first term c q) c.bytes [] :=
    fun c q => s.first_frame term c q hrun
  -- where the search hits, the result opens a message
  have hopens : ∀ c q ret, s.socket = .data c :: q →
      strstr checkMsg ((s.recieveBuffer.write 0 c.bytes).bytes ++ past) = some ret →
      ∃ pre first, Opens s past c q pre first ∧ ret = pre.length := by
    intro c q ret hq hret
    rcases hexp _ _ hq with ha | ⟨c', pre, first, hc, ho⟩
    · cases hret.symm.trans (ha.unseen c rfl)
    · cases hc
      exact ⟨pre, first, ho, Option.some.inj (hret.symm.trans ho.seen)⟩
  cases hstep with
  | @closed r q acts status hq hr ha =>
      have hframe := ((RecvFrame.refl term s).after_recv r q).log_halt acts ha status
      rw [hr] at hframe
      exact h.recv hframe rfl fun _ => hpart
  | @plain c q hq hret =>
      rcases hexp _ _ hq with ha | ⟨c', pre, first, hc, ho⟩
      -- no hit, and no marker in the data either
      · obtain ⟨part, hscan, hpart'⟩ := scan_quiet _ hpart ha.no_marker
        refine h.recv (hfirst c q) ?_ fun _ => hpart'
        rw [List.append_nil]
        exact hscan
      · cases hc
        cases ho.seen.symm.trans hret
  | @wait_second c ret hq hret =>
      obtain ⟨pre, first, ho, rfl⟩ := hopens c _ ret hq hret
      obtain ⟨part, hpart', hscan⟩ := ho.scan hpart
      -- the loop waits in `recv` with eight bytes of a message, and so does the scanner
      refine h.recv (((hfirst c []).data _).halt .blocked) (p := first) ?_ (by simp [Main.halt])
      rw [hscan [] (by simp), List.append_nil, scan_first hpart' ho.marker
        (by rw [ho.length_eq]; omega)]
  | @no_second c r q ret hq hr hret =>
      obtain ⟨pre, first, ho, rfl⟩ := hopens c _ ret hq hret
      -- the results that follow an opening one are data
      cases ho.follows with
      | @second d => exact absurd hr d.nonempty
      | @third d => exact absurd hr d.nonempty
  | @wait_third c d ret hq hret =>
      obtain ⟨pre, first, ho, rfl⟩ := hopens c _ ret hq hret
      obtain ⟨part, hpart', hscan⟩ := ho.scan hpart
      cases ho.follows with
      | second hd hdi =>
          refine h.recv (((((hfirst c _).data _).after_recv (.data d) []).data _).halt .blocked)
            (p := first ++ d.bytes) ?_ (by simp [Main.halt])
          have hlen : (first ++ d.bytes).length = 16 := by
            rw [List.length_append, ho.length_eq, hd]
          rw [List.nil_append]
          change feed _ _ (brings _ (c.bytes ++ d.bytes)) = _
          rw [hscan d.bytes hdi,
            scan_first hpart' (ho.marker.trans (List.prefix_append ..)) (by omega)]
  | @no_third c d r q ret hq hr hret =>
      obtain ⟨pre, first, ho, rfl⟩ := hopens c _ ret hq hret
      cases ho.follows with
      | @third _ e => exact absurd hr e.nonempty
  | @message c d e q ret hq hret =>
      obtain ⟨pre, first, ho, rfl⟩ := hopens c _ ret hq hret
      cases ho.follows with
      | third hd hdi he hei hno => exact h.message hrun term ho hd hdi he hei hno

/-- The same of a whole pass, with the keyboard idle. -/
theorem iteration_following (term : List UInt8) (s : Main) (p : Poll) (h : Following s)
    (hexp : Expected s p) : Following (iteration term s p) := by
  obtain ⟨s₁, hstdin, hcase⟩ := iteration_cases term s p
  cases hstdin with
  | idle =>
      rcases hcase with heq | ⟨_, _, past, rfl, hrun, hstep⟩
      · rw [heq]
        exact h
      · exact h.socket hrun hstep hexp
  | failed hs =>
      rcases hcase with heq | ⟨_, _, _, _, hrun, _⟩
      · -- the last two acts, which receive and show nothing
        have hframe := (RecvFrame.refl term s).log_halt [.telnet_free, .close]
          (by simp [Act.ofEnd]) (.exited 0)
        rw [heq]
        exact h.recv hframe rfl fun _ => h.marker_part hs
      · cases hrun
  | branch pastBuffer hs hq => cases h.idle.symm.trans hq

/-! ## Whole runs -/

theorem following_start (b r d : CArray 512) (scanfs : List (Option Int32))
    (socket : List Result) : Following (Main.start b r d [] scanfs socket) :=
  ⟨led_inv_start b r d [] scanfs socket, rfl, rfl, fun _ => Or.inl rfl⟩

/-- A run that receives as expected shows what the data received says. Nothing
of the delivery is left in that, which is the point. -/
theorem main_loop_following (term : List UInt8) (b r d : CArray 512)
    (scanfs : List (Option Int32)) (socket : List Result) (polls : List Poll)
    (h : Along (iteration term) Expected (Main.start b r d [] scanfs socket) polls) :
    Following (main_loop term (Main.start b r d [] scanfs socket) polls) :=
  run_invariant_along (iteration term) (iteration_following term)
    (following_start b r d scanfs socket) polls h

theorem sized_start : Sized Session.start.telnet := ⟨Nat.le_refl 0, by decide⟩

/-- **Readings do not depend on the delivery** as long as it is an expected one.
Take two runs with an idle keyboard that receive as expected, in arrays and over
polls of their own: in all states in which the second has received what the
first has, in whatever pieces and with complete telnet commands inserted or
without, both have shown the messages of that data, once each and in order, and
both have handed `_input` the same commands. -/
theorem readings_any_delivery (term term' : List UInt8) (b r d b' r' d' : CArray 512)
    (scanfs scanfs' : List (Option Int32)) (socket socket' : List Result)
    (polls more polls' more' : List Poll)
    (h : Along (iteration term) Expected (Main.start b r d [] scanfs socket) (polls ++ more))
    (h' : Along (iteration term') Expected (Main.start b' r' d' [] scanfs' socket')
      (polls' ++ more'))
    (hsame : Inserted Session.start.telnet
      (received (main_loop term (Main.start b r d [] scanfs socket) polls).session.trace)
      (received (main_loop term' (Main.start b' r' d' [] scanfs' socket') polls').session.trace)) :
    let s := main_loop term (Main.start b r d [] scanfs socket) polls
    let s' := main_loop term' (Main.start b' r' d' [] scanfs' socket') polls'
    shown s.session.trace = messages (payload (received s.session.trace))
      ∧ shown s'.session.trace = shown s.session.trace
      ∧ inputs .can s'.session.trace = inputs .can s.session.trace := by
  intro s s'
  have hs := main_loop_following term b r d scanfs socket polls h.of_append
  have hs' := main_loop_following term' b' r' d' scanfs' socket' polls' h'.of_append
  -- both displays are functions of the data, and the data is the same
  have hdata : payload (received s'.session.trace) = payload (received s.session.trace) :=
    hsame.data_eq sized_start
  have hshown : shown s'.session.trace = shown s.session.trace := by
    rw [hs'.shown, hs.shown, hdata]
  refine ⟨hs.shown, hshown, ?_⟩
  rw [hs'.commands, hs.commands, hshown]

/-- A message with speed 32, fuel 6 and temperature 90, then sixteen zeros, in
parts of eight bytes. -/
def in_parts : List Result :=
  [.data opening, .data ⟨ascii " 20 0000", by decide, by decide⟩,
    .data ⟨ascii " 06  5A ", by decide, by decide⟩, .data zeros, .data zeros]

/-- The same bytes, the message in one piece. -/
def in_one_piece : List Result :=
  [.data ⟨ascii "RX2abc10 20 0000 06  5A ", by decide, by decide⟩, .data zeros, .data zeros]

/-- The same stream in two deliveries, and two readings: in one piece, the zeros
behind the message are taken for its second and third part. -/
theorem reading_depends_on_cut :
    received (main_loop [] (Main.start (.fill 512 0) (.fill 512 0) (.fill 512 0) [] [] in_parts)
        (List.replicate 3 (.ready false true [] []))).session.trace
      = received (main_loop [] (Main.start (.fill 512 0) (.fill 512 0) (.fill 512 0) [] []
        in_one_piece) (List.replicate 3 (.ready false true [] []))).session.trace
    ∧ shown (main_loop [] (Main.start (.fill 512 0) (.fill 512 0) (.fill 512 0) [] [] in_parts)
        (List.replicate 3 (.ready false true [] []))).session.trace = [⟨32, 6, 90⟩]
    ∧ shown (main_loop [] (Main.start (.fill 512 0) (.fill 512 0) (.fill 512 0) [] []
        in_one_piece) (List.replicate 3 (.ready false true [] []))).session.trace
      = [⟨0, 0, 0⟩] := by
  decide +kernel

/-- `standing` with an `IAC NOP` in front of the first part. -/
def standing_after_nop : List Result :=
  .data ⟨[TELNET_IAC, 241] ++ ascii "RX2abc10", by decide, by decide⟩ :: standing.tail

/-- Two expected deliveries of one message, the second with a telnet command in
it. -/
theorem readings_any_delivery_nop :
    Along (iteration []) Expected
        (Main.start (.fill 512 0) (.fill 512 0) (.fill 512 0) [] [] standing)
        ([.ready false true [] []] ++ [])
      ∧ Along (iteration []) Expected
        (Main.start (.fill 512 0) (.fill 512 0) (.fill 512 0) [] [] standing_after_nop)
        ([.ready false true [] []] ++ [])
      ∧ shown (main_loop []
          (Main.start (.fill 512 0) (.fill 512 0) (.fill 512 0) [] [] standing_after_nop)
          [.ready false true [] []]).session.trace
        = shown (main_loop []
          (Main.start (.fill 512 0) (.fill 512 0) (.fill 512 0) [] [] standing)
          [.ready false true [] []]).session.trace := by
  have hfirst : Along (iteration []) Expected
      (Main.start (.fill 512 0) (.fill 512 0) (.fill 512 0) [] [] standing)
      ([.ready false true [] []] ++ []) := by
    refine ⟨fun r q hq => ?_, trivial⟩
    cases hq
    exact Or.inr ⟨_, [], ascii "RX2abc10", rfl, rfl, by decide, by decide, by decide, by decide,
      by decide, by decide +kernel,
      .third (by decide) (by decide) (by decide) (by decide) (by decide)⟩
  have hsecond : Along (iteration []) Expected
      (Main.start (.fill 512 0) (.fill 512 0) (.fill 512 0) [] [] standing_after_nop)
      ([.ready false true [] []] ++ []) := by
    refine ⟨fun r q hq => ?_, trivial⟩
    cases hq
    exact Or.inr ⟨_, [TELNET_IAC, 241], ascii "RX2abc10", rfl, rfl, by decide, by decide,
      by decide, by decide, by decide, by decide +kernel,
      .third (by decide) (by decide) (by decide) (by decide) (by decide)⟩
  have hstream : received (main_loop []
      (Main.start (.fill 512 0) (.fill 512 0) (.fill 512 0) [] [] standing)
      [.ready false true [] []]).session.trace = [] ++ standing.flatMap Result.bytes := by
    decide +kernel
  have hstream' : received (main_loop []
      (Main.start (.fill 512 0) (.fill 512 0) (.fill 512 0) [] [] standing_after_nop)
      [.ready false true [] []]).session.trace
      = [] ++ [TELNET_IAC, 241] ++ standing.flatMap Result.bytes := by
    decide +kernel
  have hbetween : Between Session.start.telnet [] := by decide
  obtain ⟨hnop, hdata⟩ := between_iac hbetween (b := 241) (by decide)
  have hsame : Inserted Session.start.telnet ([] ++ standing.flatMap Result.bytes)
      ([] ++ [TELNET_IAC, 241] ++ standing.flatMap Result.bytes) :=
    .insert .same hbetween hnop hdata
  rw [← hstream, ← hstream'] at hsame
  exact ⟨hfirst, hsecond, (readings_any_delivery [] [] _ _ _ _ _ _ _ _ _ _ _ [] _ [] hfirst
    hsecond hsame).2.1⟩

end AutoMag.Client
