/-
`Libtelnet/Stream.lean` -- the parser as a byte-stream machine.

`_process` works on blocks, and a block boundary shows in its `DATA` events. It
shows nowhere else: the tracker, and every event other than `DATA`, are those of
the one-byte machine `byte_step` fed with the whole stream. That is what lets
the results about negotiation speak of the bytes received and not of the recv
calls they came in.
-/
import AutoMag.Lib.Machine
import AutoMag.Libtelnet.Process

set_option autoImplicit false

namespace AutoMag.Libtelnet

open AutoMag.Machine

/-- One byte: the tracker and the events `process_byte` raises itself. -/
def byte_step (t : Telnet) (byte : UInt8) : Telnet × List Event :=
  ((process_byte t byte).telnet, (process_byte t byte).events)

/-- Everything but data passed through. -/
def Event.isControl : Event → Bool
  | .DATA _ | .OVERREAD _ => false
  | _ => true

/-- The events of a list that are not `DATA`. -/
def control (evs : List Event) : List Event := evs.filter Event.isControl

@[simp] theorem control_nil : control [] = [] := rfl

@[simp] theorem control_append (as bs : List Event) :
    control (as ++ bs) = control as ++ control bs := List.filter_append ..

@[simp] theorem control_data_event (buffer : List UInt8) (start i : ℕ) :
    control (data_event buffer start i) = [] := by
  unfold data_event
  split_ifs <;> rfl

/-- The loop of `_process` from any point of any block. `buffer`, `i` and
`start` decide on the data and on nothing else, so the byte machine may forget
about them. -/
theorem process_loop_spec (rest : List UInt8) : ∀ (buffer : List UInt8) (i start : ℕ) (t : Telnet),
    (process_loop buffer rest i start t).1 = (feed byte_step t rest).1
      ∧ control (process_loop buffer rest i start t).2
          = control (feed byte_step t rest).2 := by
  induction rest with
  | nil =>
      intro buffer i start t
      refine ⟨rfl, ?_⟩
      simp only [process_loop, feed_nil]
      split
      · exact control_data_event buffer start i
      · rfl
  | cons byte rest ih =>
      intro buffer i start t
      simp only [process_loop, feed_cons, control_append]
      have hflush : control (if (process_byte t byte).flush = true
          then data_event buffer start i else []) = [] := by
        split
        · exact control_data_event buffer start i
        · rfl
      rw [hflush, List.nil_append]
      -- the two ways on (the rest as a new block, or the loop) feed the same bytes
      split
      · exact ⟨(ih rest 0 0 _).1, by rw [(ih rest 0 0 _).2]; rfl⟩
      · exact ⟨(ih _ _ _ _).1, by rw [(ih _ _ _ _).2]; rfl⟩

/-- The tracker after a block is that of the byte machine. -/
theorem telnet_recv_fst (t : Telnet) (bs : List UInt8) :
    (telnet_recv t bs).1 = (feed byte_step t bs).1 :=
  (process_loop_spec bs bs 0 0 t).1

/-- So are the events that are not data. Where the data of a block is cut is all
that the blocks decide. -/
theorem telnet_recv_control (t : Telnet) (bs : List UInt8) :
    control (telnet_recv t bs).2 = control (feed byte_step t bs).2 :=
  (process_loop_spec bs bs 0 0 t).2

/-- What holds of a `DATA` event, and of what every byte raises in an invariant
state, holds of everything a block raises. This is the rule by which facts about
one byte become facts about `telnet_recv`. -/
theorem telnet_recv_events {I : Telnet → Prop} {P : Event → Prop}
    (hI : ∀ t b, I t → I (byte_step t b).1)
    (hdata : ∀ bytes, P (.DATA bytes) ∧ P (.OVERREAD bytes))
    (hbyte : ∀ t b, I t → ∀ ev ∈ (byte_step t b).2, P ev) {t : Telnet} (h : I t)
    (bs : List UInt8) : ∀ ev ∈ (telnet_recv t bs).2, P ev := by
  intro ev hev
  by_cases hc : ev.isControl
  · have hmem : ev ∈ control (telnet_recv t bs).2 := List.mem_filter.mpr ⟨hev, hc⟩
    rw [telnet_recv_control] at hmem
    exact feed_outputs byte_step hI hbyte h bs ev (List.mem_filter.mp hmem).1
  · cases ev with
    | DATA bytes => exact (hdata bytes).1
    | OVERREAD bytes => exact (hdata bytes).2
    | _ => exact absurd rfl hc

/-! ## Kinds of events -/

/-- Not an `ERROR` event. -/
def Event.isMild : Event → Bool
  | .ERROR _ => false
  | _ => true

/-- An event only a negotiation raises. -/
def Event.isNegotiation : Event → Bool
  | .SEND _ | .WILL _ | .WONT _ | .DO _ | .DONT _ => true
  | _ => false

/-- An event that tells of something and asks for nothing: what a subnegotiation
or a byte of one can raise. -/
def Event.isReport : Event → Bool
  | .IAC _ | .SUBNEGOTIATION _ _ | .ZMP _ | .TTYPE _ _ | .ENVIRON _ _ | .MSSP _ _ | .WARNING _ =>
      true
  | _ => false

/-- A report of a subnegotiation or a warning is no data, no error and no option
command. -/
theorem Event.kinds_of_isReport {ev : Event} (h : ev.isReport) :
    ev.isControl ∧ ev.isMild ∧ ¬ ev.isNegotiation := by
  cases ev <;> first | exact ⟨rfl, rfl, Bool.false_ne_true⟩ | cases h

/-- What is said about a finished subnegotiation is a report, whichever of the
parsers it went through. -/
theorem subnegotiate_report (t : Telnet) : ∀ ev ∈ (subnegotiate t).1, ev.isReport := by
  unfold subnegotiate zmp_telnet ttype_telnet environ_telnet mssp_telnet
  simp only
  repeat' split
  all_goals simp [Event.isReport]

/-- The warning that the buffer is full, or nothing. -/
theorem buffer_byte_report (t : Telnet) (byte : UInt8) :
    ∀ ev ∈ (buffer_byte t byte).2.1, ev.isReport := by
  unfold buffer_byte
  simp only
  repeat' split
  all_goals simp [Event.isReport]

/-- `_negotiate` raises option events and replies, none of them data and none an
error. -/
theorem negotiate_kinds (t : Telnet) (telopt : UInt8) :
    ∀ ev ∈ (negotiate t telopt).2, ev.isControl ∧ ev.isMild := by
  unfold negotiate negotiate_will negotiate_wont negotiate_do negotiate_dont
  repeat' split
  all_goals simp [Event.isControl, Event.isMild, send_negotiate]

/-! ## No fatal error

Every `_error` call outside the zlib code has `fatal = 0`. -/

/-- After an IAC: an event for a command byte, data for an escaped IAC. -/
theorem iac_byte_mild (t : Telnet) (byte : UInt8) :
    ∀ ev ∈ (iac_byte t byte).events, ev.isMild := by
  unfold iac_byte
  repeat' split
  all_goals simp [Event.isMild]

/-- Any byte in any state. The errors the source calls fatal are those of zlib,
which is not compiled in; all others are warnings. -/
theorem process_byte_mild (t : Telnet) (byte : UInt8) :
    ∀ ev ∈ (process_byte t byte).events, ev.isMild := by
  cases hs : t.state <;> simp only [process_byte, hs]
  case DATA => split <;> simp
  case IAC => exact iac_byte_mild t byte
  case SB => simp
  -- only a byte that does not fit any more raises anything
  case SB_DATA =>
    unfold sb_data_byte
    simp only
    repeat' split
    all_goals first
      | exact fun ev hev => (Event.kinds_of_isReport (buffer_byte_report t byte ev hev)).2.1
      | simp
  case SB_DATA_IAC =>
    have hsub : ∀ ev ∈ (subnegotiate t).1, ev.isMild :=
      fun ev hev => (Event.kinds_of_isReport (subnegotiate_report t ev hev)).2.1
    unfold sb_data_iac_byte
    simp only
    repeat' split
    · exact hsub
    · intro ev hev
      exact (Event.kinds_of_isReport (buffer_byte_report t _ ev hev)).2.1
    · intro ev hev
      exact (Event.kinds_of_isReport (buffer_byte_report t _ ev hev)).2.1
    -- the warning, the events of the subnegotiation, and those of the byte after it
    · intro ev hev
      rcases List.mem_cons.mp hev with rfl | hev
      · rfl
      · exact hsub ev hev
    · intro ev hev
      rcases List.mem_cons.mp hev with rfl | hev
      · rfl
      · rcases List.mem_append.mp hev with hev | hev
        · exact hsub ev hev
        · exact iac_byte_mild _ byte ev hev
  all_goals exact fun ev hev => (negotiate_kinds t byte ev hev).2

/-- **No block makes the library raise `ERROR`.** The programs built on it give
up at such an event, and that branch of theirs is never taken. -/
theorem telnet_recv_mild (t : Telnet) (bs : List UInt8) :
    ∀ ev ∈ (telnet_recv t bs).2, ev.isMild :=
  telnet_recv_events (I := fun _ => True) (fun _ _ _ => trivial) (fun _ => ⟨rfl, rfl⟩)
    (fun t b _ => process_byte_mild t b) trivial bs

/-! ## Negotiation apart

The option table, and the events that have to do with it, are touched by the byte
after a verb and by no other. -/

/-- The next byte is the option of a negotiation. -/
def State.isVerb : State → Bool
  | .WILL | .WONT | .DO | .DONT => true
  | _ => false

/-- The table and what it is checked against are the same in both trackers. -/
structure SameTable (t t' : Telnet) : Prop where
  q : t'.q = t.q
  q_size : t'.q_size = t.q_size
  telopts : t'.telopts = t.telopts
  flags : t'.flags = t.flags

theorem buffer_byte_apart (t : Telnet) (byte : UInt8) :
    SameTable t (buffer_byte t byte).1
      ∧ ∀ ev ∈ (buffer_byte t byte).2.1, ¬ ev.isNegotiation := by
  refine ⟨?_, fun ev hev => (Event.kinds_of_isReport (buffer_byte_report t byte ev hev)).2.2⟩
  unfold buffer_byte
  simp only
  repeat' split
  all_goals exact ⟨rfl, rfl, rfl, rfl⟩

/-- After an IAC the parser only remembers the verb; the table is looked at when
the option has come. -/
theorem iac_byte_apart (t : Telnet) (byte : UInt8) :
    SameTable t (iac_byte t byte).telnet
      ∧ ∀ ev ∈ (iac_byte t byte).events, ¬ ev.isNegotiation := by
  unfold iac_byte
  repeat' split
  all_goals exact ⟨⟨rfl, rfl, rfl, rfl⟩, by simp [Event.isNegotiation]⟩

/-- **No other byte negotiates.** The table changes, and option events are
raised, only at the byte after a verb. -/
theorem process_byte_apart (t : Telnet) (byte : UInt8) (h : ¬ t.state.isVerb) :
    SameTable t (process_byte t byte).telnet
      ∧ ∀ ev ∈ (process_byte t byte).events, ¬ ev.isNegotiation := by
  have hsame : ∀ t' : Telnet, SameTable t t' → ∀ s, SameTable t { t' with state := s } :=
    fun t' h s => ⟨h.1, h.2, h.3, h.4⟩
  have hrefl : SameTable t t := ⟨rfl, rfl, rfl, rfl⟩
  cases hs : t.state <;> simp only [process_byte, hs]
  case DATA => split <;> exact ⟨⟨rfl, rfl, rfl, rfl⟩, by simp⟩
  case IAC => exact iac_byte_apart t byte
  case SB => exact ⟨⟨rfl, rfl, rfl, rfl⟩, by simp⟩
  case SB_DATA =>
    obtain ⟨hb, hev⟩ := buffer_byte_apart t byte
    unfold sb_data_byte
    simp only
    repeat' split
    · exact ⟨hsame t hrefl _, by simp⟩
    · exact ⟨hsame t hrefl _, by simp⟩
    · exact ⟨hb, hev⟩
    · exact ⟨hsame _ hb _, hev⟩
  case SB_DATA_IAC =>
    obtain ⟨hb, hev⟩ := buffer_byte_apart t TELNET_IAC
    have hsub : ∀ ev ∈ (subnegotiate t).1, ¬ ev.isNegotiation :=
      fun ev hev => (Event.kinds_of_isReport (subnegotiate_report t ev hev)).2.2
    unfold sb_data_iac_byte
    simp only
    repeat' split
    · exact ⟨hsame t hrefl _, hsub⟩
    · exact ⟨hsame _ hb _, hev⟩
    · exact ⟨hsame _ hb _, hev⟩
    · refine ⟨hsame t hrefl _, fun ev hev => ?_⟩
      rcases List.mem_cons.mp hev with rfl | hev
      · simp [Event.isNegotiation]
      · exact hsub ev hev
    · obtain ⟨hi, hiev⟩ := iac_byte_apart { t with state := .IAC } byte
      refine ⟨⟨hi.1, hi.2, hi.3, hi.4⟩, fun ev hev => ?_⟩
      rcases List.mem_cons.mp hev with rfl | hev
      · simp [Event.isNegotiation]
      · rcases List.mem_append.mp hev with hev | hev
        · exact hsub ev hev
        · exact hiev ev hev
  -- the four verbs are excluded
  all_goals exact absurd (by rw [hs]; rfl) h

/-- The byte after a verb: `_negotiate`, and back to the DATA state whatever
that decides. -/
theorem process_byte_verb (t : Telnet) (byte : UInt8) (h : t.state.isVerb) :
    (process_byte t byte).telnet = { (negotiate t byte).1 with state := .DATA }
      ∧ (process_byte t byte).events = (negotiate t byte).2 := by
  cases hs : t.state
  case WILL => simp [process_byte, hs]
  case WONT => simp [process_byte, hs]
  case DO => simp [process_byte, hs]
  case DONT => simp [process_byte, hs]
  all_goals rw [hs] at h; cases h

end AutoMag.Libtelnet
