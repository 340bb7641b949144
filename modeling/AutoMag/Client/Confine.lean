/-
`Client/Confine.lean` -- all a server can make the client send.

With nobody at the keyboard the client writes to the socket on two occasions: the
telnet layer answers, and a CAN message changes the side of the speed. The answers
are the `Reply`s below and nothing else, for any bytes whatever; the LED commands
come in pairs, one LED set and the other cleared, and from one pair to the next the
LEDs change places.
-/
import Mathlib.Data.List.Chain
import AutoMag.Client.Leds
import AutoMag.Client.Options

set_option autoImplicit false

namespace AutoMag.Client

open AutoMag.CMemory AutoMag.Libtelnet AutoMag.Machine

/-! ## What can be sent -/

/-- An answer of the telnet layer. -/
inductive Reply where
  | DO (o : UInt8) (ho : o ∈ [TELNET_TELOPT_ECHO, TELNET_TELOPT_COMPRESS2, TELNET_TELOPT_MSSP])
  | DONT (o : UInt8)
  | WILL_TTYPE
  | WONT (o : UInt8)
  | TTYPE_IS

/-- Its bytes. -/
def Reply.bytes (term : List UInt8) : Reply → List UInt8
  | .DO o _ => [TELNET_IAC, TELNET_DO, o]
  | .DONT o => [TELNET_IAC, TELNET_DONT, o]
  | .WILL_TTYPE => [TELNET_IAC, TELNET_WILL, TELNET_TELOPT_TTYPE]
  | .WONT o => [TELNET_IAC, TELNET_WONT, o]
  | .TTYPE_IS => [TELNET_IAC, TELNET_SB, TELNET_TELOPT_TTYPE, TELNET_TTYPE_IS] ++ term
      ++ [TELNET_IAC, TELNET_SE]

def Led.other : Led → Led
  | .one => .two
  | .two => .one

/-- The command that sets an LED, after CRLF translation. -/
def led_set : Led → List UInt8
  | .one => ascii "\r\n\r\n GPLED LED1 SET\r\n"
  | .two => ascii "GPLED LED2 SET\r\n"

/-- The command that clears an LED, after CRLF translation. -/
def led_clear : Led → List UInt8
  | .one => ascii "GPLED LED1 CLEAR\r\n"
  | .two => ascii "GPLED LED2 CLEAR\r\n"

/-- What goes out in one piece: an answer, or one LED set and the other
cleared. -/
inductive Item where
  | reply (r : Reply)
  | pair (a : Led)

def Item.bytes (term : List UInt8) : Item → List UInt8
  | .reply r => r.bytes term
  | .pair a => led_set a ++ led_clear a.other

/-- The LED a pair sets. -/
def Item.led : Item → Option Led
  | .reply _ => none
  | .pair a => some a

/-! ## Answers -/

/-- An event that has the client write an answer, or nothing. -/
def Answers (term : List UInt8) (ev : Event) : Prop :=
  ∃ rs : List Reply, wire (event_acts term .reply ev) = rs.flatMap (Reply.bytes term)

theorem answers_send (term : List UInt8) (r : Reply) : Answers term (.SEND (r.bytes term)) := by
  refine ⟨[r], ?_⟩
  have hne : r.bytes term ≠ [] := by cases r <;> simp [Reply.bytes]
  simp [event_acts, reply_acts, send_acts, hne, wire]

theorem answers_none {term : List UInt8} {ev : Event} (h : wire (event_acts term .reply ev) = []) :
    Answers term ev := ⟨[], h⟩

/-- What `telnet_ttype_is` writes: a complete subnegotiation, with the
terminal's name as the environment has it. -/
theorem wire_ttype_is (term : List UInt8) (name : List UInt8) :
    wire (event_acts term .reply (.TTYPE TELNET_TTYPE_SEND name)) = Reply.TTYPE_IS.bytes term := by
  -- with no TERM the middle `SEND` is empty and nothing is written for it
  by_cases h : term = []
  · subst h
    rfl
  · simp [event_acts, reply_acts, telnet_ttype_is, send_acts, wire, Reply.bytes, h]

/-- Events other than those of a negotiation write nothing, but for the request
of the terminal type. -/
theorem answers_apart (term : List UInt8) {ev : Event} (h : ¬ ev.isNegotiation) :
    Answers term ev := by
  cases ev with
  | TTYPE cmd name =>
      by_cases hcmd : cmd = TELNET_TTYPE_SEND
      · subst hcmd
        exact ⟨[.TTYPE_IS], by rw [wire_ttype_is]; simp⟩
      · exact answers_none (by simp [event_acts, reply_acts, hcmd, wire])
  | SEND bytes => exact absurd rfl h
  | WILL o => exact absurd rfl h
  | WONT o => exact absurd rfl h
  | DO o => exact absurd rfl h
  | DONT o => exact absurd rfl h
  | _ => exact answers_none rfl

theorem Turn.answers {t : Telnet} {o : UInt8} {r : Telnet × List Event} (h : Turn t o r)
    (term : List UInt8) : ∀ ev ∈ r.2, Answers term ev := by
  cases h with
  | silent => simp
  | refuse_him =>
      simp only [List.mem_singleton, forall_eq]
      exact answers_send term (.DONT o)
  | refuse_us =>
      simp only [List.mem_singleton, forall_eq]
      exact answers_send term (.WONT o)
  | him_on ho =>
      simp only [List.mem_cons, List.not_mem_nil, or_false, forall_eq_or_imp, forall_eq]
      exact ⟨answers_send term (.DO o ho), answers_none rfl⟩
  | him_off ho =>
      simp only [List.mem_cons, List.not_mem_nil, or_false, forall_eq_or_imp, forall_eq]
      exact ⟨answers_send term (.DONT o), answers_none rfl⟩
  | us_on ho =>
      subst ho
      simp only [List.mem_cons, List.not_mem_nil, or_false, forall_eq_or_imp, forall_eq]
      exact ⟨answers_send term .WILL_TTYPE, answers_none rfl⟩
  | us_off ho =>
      simp only [List.mem_cons, List.not_mem_nil, or_false, forall_eq_or_imp, forall_eq]
      exact ⟨answers_send term (.WONT o), answers_none rfl⟩

theorem byte_answers (term : List UInt8) (t : Telnet) (b : UInt8) (h : ∃ es, Options t es) :
    ∀ ev ∈ (byte_step t b).2, Answers term ev := by
  obtain ⟨es, hes⟩ := h
  by_cases hv : t.state.isVerb
  · rw [byte_step, (process_byte_verb t b hv).2]
    exact (hes.negotiate_turn b).answers term
  · intro ev hev
    exact answers_apart term ((process_byte_apart t b hv).2 ev hev)

/-- **Whatever a block holds, it is answered with `Reply`s.** The rule for the
events of a block reduces it to what one byte raises. -/
theorem wire_recv_acts (term : List UInt8) {t : Telnet} (h : ∃ es, Options t es)
    (bytes : List UInt8) :
    ∃ rs : List Reply, wire (recv_acts term t bytes) = rs.flatMap (Reply.bytes term) := by
  have hall : ∀ ev ∈ (telnet_recv t bytes).2, Answers term ev := by
    -- the tracker stays one of this client's, byte after byte
    refine telnet_recv_events (I := fun t => ∃ es, Options t es) ?_
      (fun _ => ⟨answers_none rfl, answers_none rfl⟩)
      (byte_answers term) h bytes
    rintro t b ⟨es, hes⟩
    obtain ⟨es', hes', _⟩ := hes.byte b
    exact ⟨es', hes'⟩
  unfold recv_acts
  generalize (telnet_recv t bytes).2 = evs at hall
  induction evs with
  | nil => exact ⟨[], rfl⟩
  | cons ev evs ih =>
      obtain ⟨rs, hrs⟩ := hall ev (List.mem_cons_self ..)
      obtain ⟨rs', hrs'⟩ := ih fun ev' h' => hall ev' (List.mem_cons_of_mem _ h')
      refine ⟨rs ++ rs', ?_⟩
      rw [List.flatMap_cons, wire_append, hrs, hrs', List.flatMap_append]

/-! ## Pairs -/

theorem wire_texts (who : Origin) (e : Bool) (texts : List String) :
    wire (texts.flatMap fun t => input_acts who e (ascii t))
      = (texts.flatMap ascii).flatMap fun b => escape (crlf b) := by
  rw [List.flatMap_assoc]
  exact view_texts (wire_input_acts who e) texts

theorem wire_pair (l : Led) :
    ((pair_texts l).flatMap ascii).flatMap (fun b => escape (crlf b))
      = led_set l ++ led_clear l.other := by
  cases l <;> decide +kernel

theorem wire_led_acts (e : Bool) (last : Option Led) (speed : ℕ) :
    wire (led_acts e last speed) = if last = some (side speed) then []
      else led_set (side speed) ++ led_clear (side speed).other := by
  rw [led_acts, wire_texts]
  split
  · rfl
  · exact wire_pair _

/-! ## Every run -/

/-- Nobody types, the tracker is in order, and what has been sent is items, the
last pair among them for the side of the last message. -/
structure Confined (term : List UInt8) (s : Main) : Prop extends LedInv s where
  idle : s.stdin = []
  options : ∃ es, Options s.session.telnet es
  items : ∃ is : List Item, wire s.session.trace = is.flatMap (Item.bytes term)
    ∧ (is.filterMap Item.led).IsChain (· ≠ ·)
    ∧ (is.filterMap Item.led).getLast? = last_side none (shown s.session.trace)

/-- Acts that write nothing leave the items as they are. -/
theorem Confined.of_silent {term : List UInt8} {s s' : Main} (h : Confined term s)
    (hled : LedInv s') (hidle : s'.stdin = s.stdin) (ht : s'.session.telnet = s.session.telnet)
    {acts : List Act} (htr : s'.session.trace = s.session.trace ++ acts) (hwire : wire acts = [])
    (hshown : shown acts = []) : Confined term s' := by
  refine ⟨hled, hidle.trans h.idle, by rw [ht]; exact h.options, ?_⟩
  rw [htr, wire_append, hwire, shown_append, hshown, List.append_nil, List.append_nil]
  exact h.items

theorem Confined.stdin {term : List UInt8} {s s' : Main} (h : Confined term s)
    (hstep : StdinStep term s s') : Confined term s' := by
  cases hstep with
  | idle => exact h
  | failed hs =>
      have htr : s.leave.session.trace = s.session.trace ++ [.telnet_free, .close] := rfl
      exact h.of_silent (h.toLedInv.stdin (StdinStep.failed hs : StdinStep term s s.leave)) rfl
        rfl htr rfl rfl
  -- nothing is ever typed
  | branch past hs hq => rw [h.idle] at hq; cases hq

/-- Receiving adds answers, behind whatever has been written: the replies go out
before anything is shown. -/
theorem Confined.recv {term : List UInt8} {s s' : Main} {x y : List UInt8} (h : Confined term s)
    (hframe : RecvFrame term s s' x y) : Confined term s' := by
  obtain ⟨acts, htr, hof, _, hsend⟩ := hframe.trace
  obtain ⟨es, hes⟩ := h.options
  obtain ⟨is, his, hchain, hlast⟩ := h.items
  obtain ⟨es', hes', _⟩ := hes.feed x
  obtain ⟨rs, hrs⟩ := wire_recv_acts term ⟨es, hes⟩ x
  have hwire : wire acts = (rs.map Item.reply).flatMap (Item.bytes term) := by
    rw [wire_filter, hsend, ← wire_filter, hrs, List.flatMap_map]
    rfl
  -- answers set no LED, so the chain of pairs is the old one
  have hleds : (is ++ rs.map Item.reply).filterMap Item.led = is.filterMap Item.led := by
    have hnone : (rs.map Item.reply).filterMap Item.led = [] := by
      simp [List.filterMap_map, List.filterMap_eq_nil_iff, Item.led]
    rw [List.filterMap_append, hnone, List.append_nil]
  refine ⟨h.toLedInv.recv hframe, hframe.stdin.trans h.idle, ⟨es', ?_⟩,
    is ++ rs.map Item.reply, ?_, ?_, ?_⟩
  · rw [hframe.telnet, telnet_recv_fst]
    exact hes'
  · rw [htr, wire_append, his, hwire, List.flatMap_append]
  · rw [hleds]
    exact hchain
  · rw [hleds, htr, shown_append, shown_ofRecv hof, List.append_nil]
    exact hlast

/-- A message on the other side adds a pair, for the other LED than the last
one. -/
theorem Confined.show {term : List UInt8} {s : Main} (h : Confined term s)
    (hs : s.session.status = .running) : Confined term (show_message term s) := by
  have hframe := show_message_frame term s hs
  by_cases hid : id_matches s.dataBuffer.bytes
  · obtain ⟨is, his, hchain, hlast⟩ := h.items
    have hwire : wire (show_message term s).session.trace = wire s.session.trace
        ++ if last_side none (shown s.session.trace)
            = some (side (reading s.dataBuffer.bytes).speed)
          then [] else Item.bytes term (.pair (side (reading s.dataBuffer.bytes).speed)) := by
      rw [show_message_pos term s _ hs h.flags hid]
      simp only [Main.setLeds_session, Main.log_session, Session.log_trace, wire_append]
      congr 1
      exact wire_led_acts _ _ _
    have hshown := h.shown_show term hs hid
    refine ⟨h.toLedInv.show term hs, hframe.stdin.trans h.idle,
      by rw [hframe.telnet]; exact h.options, ?_⟩
    rw [hwire, hshown, last_side_append, his]
    by_cases hl : last_side none (shown s.session.trace)
        = some (side (reading s.dataBuffer.bytes).speed)
    · rw [if_pos hl, List.append_nil]
      exact ⟨is, rfl, hchain, hlast.trans hl⟩
    · rw [if_neg hl]
      refine ⟨is ++ [.pair (side (reading s.dataBuffer.bytes).speed)], ?_, ?_, ?_⟩
      · rw [List.flatMap_append, List.flatMap_singleton]
      · rw [List.filterMap_append]
        -- the last pair was for the side of the last message, and this one is for the other
        apply hchain.append (List.IsChain.singleton _)
        intro a ha b hb
        rw [hlast] at ha
        cases hb
        rintro rfl
        exact hl ha
      · rw [List.filterMap_append]
        exact List.getLast?_concat ..
  · rw [show_message_neg term s hid]
    exact h

/-- **What a server can make the client send.** For any stream in any pieces,
with nobody typing: a sequence of complete items, in which successive pairs set
the two LEDs in turn. -/
theorem server_confined (term : List UInt8) (b r d : CArray 512) (scanfs : List (Option Int32))
    (socket : List Result) (polls : List Poll) :
    ∃ is : List Item,
      wire (main_loop term (Main.start b r d [] scanfs socket) polls).session.trace
          = is.flatMap (Item.bytes term)
        ∧ (is.filterMap Item.led).IsChain (· ≠ ·) := by
  have hstart : Confined term (Main.start b r d [] scanfs socket) :=
    ⟨led_inv_start b r d [] scanfs socket, rfl, ⟨[], options_start⟩, [], rfl, .nil, rfl⟩
  have hend := main_loop_invariant term (I := Confined term) (fun _ _ hstep h => h.stdin hstep)
    (fun _ _ _ _ hframe h => h.recv hframe) (fun _ hs h => h.show hs) hstart polls
  obtain ⟨is, his, hchain, _⟩ := hend.items
  exact ⟨is, his, hchain⟩

end AutoMag.Client
