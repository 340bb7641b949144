/-
`Libtelnet/Relay.lean` -- a stream taken apart and put together again.

A tracker in PROXY mode tells its application every command of a stream and decides nothing
itself; the application passes each on with the sender for it. What comes out is in general
not the bytes that went in: data that was cut is joined, a subnegotiation that ran into the
next command is closed, one that is too long turns into data. But it says the same: an end
that receives what comes out is told what it would have been told by what went in, warnings
about the form of the stream apart, and its table is the same afterwards
(`relay_transparent`).
-/
import AutoMag.Libtelnet.RoundTrip

set_option autoImplicit false

namespace AutoMag.Libtelnet

open AutoMag.Machine

/-! ## 1. Passing on -/

/-- What goes out for an event: the sender for it, called on the other tracker,
in PROXY mode. -/
def relayed : Event → List UInt8
  | .DATA bytes => posted (telnet_send bytes)
  | .IAC cmd => posted (telnet_iac cmd)
  | .WILL telopt => posted [send_negotiate TELNET_WILL telopt]
  | .WONT telopt => posted [send_negotiate TELNET_WONT telopt]
  | .DO telopt => posted [send_negotiate TELNET_DO telopt]
  | .DONT telopt => posted [send_negotiate TELNET_DONT telopt]
  | .SUBNEGOTIATION telopt buffer => posted (telnet_subnegotiation telopt buffer)
  | _ => []

/-- The cut of the data does not show: bytes go out as they came, in larger
pieces or smaller ones. -/
theorem relayed_bytewise (evs : List Event) :
    (bytewise evs).flatMap relayed = evs.flatMap relayed := by
  induction evs with
  | nil => rfl
  | cons ev evs ih =>
      rw [List.flatMap_cons, bytewise, List.flatMap_cons, List.flatMap_append]
      have hone : ev.bytewise.flatMap relayed = relayed ev := by
        cases ev with
        | DATA bytes =>
            simp only [Event.bytewise, relayed, posted_telnet_send, List.flatMap_map]
            exact (doubled_flatMap bytes).symm
        | _ => exact List.flatMap_singleton ..
      rw [hone]
      exact congrArg _ ih

/-- Everything but warnings. -/
def Event.isNews : Event → Bool
  | .WARNING _ => false
  | _ => true

def news (evs : List Event) : List Event := evs.filter Event.isNews

theorem news_append (as bs : List Event) : news (as ++ bs) = news as ++ news bs :=
  List.filter_append ..

/-! ## 2. Trackers that parse alike -/

/-- What `_buffer_byte` says: a warning if the limit is reached. -/
theorem buffer_byte_events {t : Telnet} (h : Sized t) (byte : UInt8) :
    (buffer_byte t byte).2.1
      = if t.buffer.length = 16384 then [.WARNING "subnegotiation buffer size limit reached"]
        else [] := by
  have hle := h.le
  have hmax : ∀ n ∈ buffer_sizes, n ≤ 16384 := by decide
  have hsize := hmax _ h.mem
  by_cases hfull : t.buffer.length = 16384
  · have hlimit : t.buffer_size = 16384 := by omega
    have hlast : buffer_sizes.length - 1 ≤ buffer_sizes.findIdx (· = t.buffer_size) := by
      rw [hlimit]
      decide
    rw [if_pos hfull, buffer_byte, if_pos (hfull.trans hlimit.symm)]
    simp only [if_pos hlast]
  · rw [if_neg hfull]
    exact congrArg Prod.fst (buffer_byte_fits h byte (by omega)).1

/-- Outside of negotiation they tell the same, for nothing else looks at the
table. -/
theorem SameParse.tells {t u : Telnet} (h : SameParse t u) (hverb : t.state.isVerb = false)
    (byte : UInt8) :
    (tell_step u byte).2 = (tell_step t byte).2 := by
  have hu := h.state
  simp only [tell_step, hu]
  apply congrArg
  have hiac : ∀ t u : Telnet, (iac_byte u byte).events = (iac_byte t byte).events := by
    intro t u
    unfold iac_byte
    split_ifs <;> rfl
  cases hs : t.state <;> rw [hs] at hu hverb <;> simp only [process_byte, hs, hu]
  case DATA => split <;> rfl
  case IAC => exact hiac t u
  case SB_DATA =>
    obtain ⟨hopt, hbuf⟩ := h.sb (Or.inl hs)
    have hev : (buffer_byte u byte).2 = (buffer_byte t byte).2 := by
      apply Prod.ext
      · rw [buffer_byte_events h.left, buffer_byte_events h.right, hbuf]
      · rw [(buffer_byte_spec h.left byte).2.2.1, (buffer_byte_spec h.right byte).2.2.1, hbuf]
    unfold sb_data_byte
    simp only [hopt, hev]
    split_ifs <;> rfl
  case SB_DATA_IAC =>
    obtain ⟨hopt, hbuf⟩ := h.sb (Or.inr hs)
    have hsub : subnegotiate u = subnegotiate t := by simp only [subnegotiate, hopt, hbuf]
    have hev : (buffer_byte u TELNET_IAC).2 = (buffer_byte t TELNET_IAC).2 := by
      apply Prod.ext
      · rw [buffer_byte_events h.left, buffer_byte_events h.right, hbuf]
      · rw [(buffer_byte_spec h.left TELNET_IAC).2.2.1, (buffer_byte_spec h.right TELNET_IAC).2.2.1,
          hbuf]
    unfold sb_data_iac_byte
    simp only [hsub, hev, hiac { t with state := .IAC } { u with state := .IAC }]
    split_ifs <;> rfl
  all_goals cases hverb

/-- Negotiation looks at the table and at nothing else: not at the buffer, nor
at the subnegotiation that was last. -/
theorem negotiate_congr {u v : Telnet} (h : SameTable u v) (hs : v.state = u.state) (byte : UInt8) :
    (negotiate v byte).2 = (negotiate u byte).2
      ∧ SameTable (negotiate u byte).1 (negotiate v byte).1 := by
  have hv : v = { u with
      buffer := v.buffer, buffer_size := v.buffer_size, sb_telopt := v.sb_telopt } := by
    obtain ⟨h1, h2, h3, h4⟩ := h
    cases u
    cases v
    simp_all
  rw [hv]
  generalize v.buffer = buffer
  generalize v.buffer_size = buffer_size
  generalize v.sb_telopt = sb_telopt
  have hget : ∀ o, get_rfc1143 { u with buffer, buffer_size, sb_telopt } o = get_rfc1143 u o :=
    fun _ => rfl
  have hcheck : ∀ o us, check_telopt { u with buffer, buffer_size, sb_telopt } o us
      = check_telopt u o us :=
    fun _ _ => rfl
  have hset : ∀ o us him, SameTable (set_rfc1143 u o us him)
      (set_rfc1143 { u with buffer, buffer_size, sb_telopt } o us him) := by
    intro o us him
    unfold set_rfc1143
    simp only
    split <;> exact ⟨rfl, rfl, rfl, rfl⟩
  unfold negotiate negotiate_will negotiate_wont negotiate_do negotiate_dont
  simp only [hget, hcheck]
  repeat' split
  all_goals first
    | exact ⟨rfl, rfl, rfl, rfl, rfl⟩
    | exact ⟨rfl, hset _ _ _⟩

/-! ## 3. PROXY mode -/

/-- A byte does not change the mode, and answers nothing. In PROXY mode
`_negotiate` raises the event and leaves the decision to the application. -/
theorem process_byte_proxy {t : Telnet} (hmode : t.flags &&& TELNET_FLAG_PROXY ≠ 0) (byte : UInt8) :
    (process_byte t byte).telnet.flags = t.flags
      ∧ ∀ ev ∈ (process_byte t byte).events, ∀ bytes, ev ≠ .SEND bytes := by
  by_cases hverb : t.state.isVerb
  · obtain ⟨htelnet, hevents⟩ := process_byte_verb t byte hverb
    rw [htelnet, hevents, negotiate, if_pos hmode]
    split <;> exact ⟨rfl, by simp⟩
  · obtain ⟨htable, hevents⟩ := process_byte_apart t byte hverb
    refine ⟨htable.flags, ?_⟩
    rintro ev hev bytes rfl
    exact hevents _ hev rfl

/-- Neither does a block. -/
theorem telnet_recv_proxy {t : Telnet} (hmode : t.flags &&& TELNET_FLAG_PROXY ≠ 0)
    (bs : List UInt8) :
    (telnet_recv t bs).1.flags = t.flags
      ∧ ∀ ev ∈ (telnet_recv t bs).2, ∀ bytes, ev ≠ .SEND bytes := by
  constructor
  · rw [telnet_recv_fst]
    induction bs generalizing t with
    | nil => rfl
    | cons b bs ih =>
        have hflags := (process_byte_proxy hmode b).1
        exact (ih (by rw [byte_step, hflags]; exact hmode)).trans hflags
  · have hkept : ∀ (t : Telnet) (b : UInt8), t.flags &&& TELNET_FLAG_PROXY ≠ 0 →
        (byte_step t b).1.flags &&& TELNET_FLAG_PROXY ≠ 0 := by
      intro t b h
      rw [byte_step, (process_byte_proxy h b).1]
      exact h
    exact telnet_recv_events (P := fun ev => ∀ bytes, ev ≠ .SEND bytes) hkept (fun _ => by simp)
      (fun t b h => (process_byte_proxy h b).2) hmode bs

/-! ## 4. The two lines side by side -/

/-- `t` takes the stream apart, `u` is the end on the direct line, `v` the end
behind `t`: whatever `t` is in the middle of, `v` has not seen any of it. -/
structure Tandem (t u v : Telnet) : Prop where
  parse : SameParse t u
  table : SameTable u v
  ready : v.state = .DATA
  sized : Sized v
  mode : t.flags &&& TELNET_FLAG_PROXY ≠ 0
  mccp : t.state = .SB_DATA ∨ t.state = .SB_DATA_IAC →
    t.sb_telopt = TELNET_TELOPT_COMPRESS → TELNET_WILL ∉ t.buffer

/-- One byte: what `t` passes on for it takes `v` along. -/
def Tandem.Next (t u v : Telnet) (byte : UInt8) : Prop :=
  ∃ v' evs, Reads v ((tell_step t byte).2.flatMap relayed) v' evs
    ∧ news evs = news (tell_step u byte).2
    ∧ Tandem (process_byte t byte).telnet (process_byte u byte).telnet v'

namespace Tandem

variable {t u v : Telnet} {byte : UInt8} (h : Tandem t u v)
include h

/-- The byte does not negotiate, and what it tells `t` is passed on as bytes
that say the same, warnings apart. The other cases come down to this one. -/
theorem next_of_said (hverb : t.state.isVerb = false) {evs : List Event}
    (hsaid : Says ((tell_step t byte).2.flatMap relayed) evs)
    (hnews : news evs = news (tell_step t byte).2)
    (hmccp : (process_byte t byte).telnet.state = .SB_DATA
        ∨ (process_byte t byte).telnet.state = .SB_DATA_IAC →
      (process_byte t byte).telnet.sb_telopt = TELNET_TELOPT_COMPRESS →
      TELNET_WILL ∉ (process_byte t byte).telnet.buffer) :
    Next t u v byte := by
  obtain ⟨v', hgo, hready, hsized, htable⟩ := hsaid v h.ready h.sized
  have hut := (process_byte_apart u byte (by rw [h.parse.state, hverb]; exact Bool.false_ne_true)).1
  have htt := (process_byte_apart t byte (by rw [hverb]; exact Bool.false_ne_true)).1
  refine ⟨v', evs, hgo.toReads, ?_, (h.parse.step byte).1, ?_, hready, hsized, ?_, hmccp⟩
  · rw [hnews, h.parse.tells hverb]
  · -- `u` and `v` both keep their tables
    exact ⟨(htable.q.trans h.table.q).trans hut.q.symm,
      (htable.q_size.trans h.table.q_size).trans hut.q_size.symm,
      (htable.telopts.trans h.table.telopts).trans hut.telopts.symm,
      (htable.flags.trans h.table.flags).trans hut.flags.symm⟩
  · rw [htt.flags]
    exact h.mode

/-- The byte only moves the parser of `t` on. Nothing is passed on, so `v` stays
where it is, one command behind. -/
theorem next_of_silent (hverb : t.state.isVerb = false) (hnews : news (tell_step t byte).2 = [])
    (hquiet : (tell_step t byte).2.flatMap relayed = [])
    (hmccp : (process_byte t byte).telnet.state = .SB_DATA
        ∨ (process_byte t byte).telnet.state = .SB_DATA_IAC →
      (process_byte t byte).telnet.sb_telopt = TELNET_TELOPT_COMPRESS →
      TELNET_WILL ∉ (process_byte t byte).telnet.buffer) :
    Next t u v byte := by
  apply h.next_of_said hverb _ _ hmccp
  · exact []
  · rw [hquiet]
    exact says_nil
  · rw [hnews]
    rfl

/-- Data, and the beginning of a command, which `v` will hear of when it is
over. -/
theorem next_data (hs : t.state = .DATA) : Next t u v byte := by
  have hverb : t.state.isVerb = false := by rw [hs]; rfl
  by_cases hb : byte = TELNET_IAC
  · subst hb
    have hp : process_byte t TELNET_IAC
        = { telnet := { t with state := .IAC }, flush := true } := by
      simp [process_byte, hs]
    have htell : (tell_step t TELNET_IAC).2 = [] := by simp [tell_step, hp]
    apply h.next_of_silent hverb
    · rw [htell]
      rfl
    · rw [htell]
      rfl
    · rw [hp]
      simp
  · have hp : process_byte t byte = { telnet := t } := by simp [process_byte, hs, hb]
    have htell : (tell_step t byte).2 = [.DATA [byte]] := by simp [tell_step, hp, hs, hb]
    apply h.next_of_said hverb _ rfl
    · rw [hp, hs]
      simp
    · rw [htell]
      simpa [relayed] using says_byte byte

omit h in
/-- What `iac_byte` tells is passed on as bytes that say it, and it begins no
subnegotiation data. -/
theorem says_iac_byte (w : Telnet) (byte : UInt8) :
    Says ((iac_byte w byte).events.flatMap relayed) (iac_byte w byte).events
      ∧ (iac_byte w byte).telnet.state ≠ .SB_DATA ∧ (iac_byte w byte).telnet.state
        ≠ .SB_DATA_IAC := by
  unfold iac_byte
  split_ifs with hsb hwill hwont hdo hdont hiac
  -- an opening: nothing is told yet
  iterate 5 exact ⟨says_nil, by simp, by simp⟩
  · refine ⟨?_, by simp, by simp⟩
    simpa [relayed] using says_byte byte
  · refine ⟨?_, by simp, by simp⟩
    simpa [relayed, telnet_iac] using says_iac ⟨hsb, hwill, hwont, hdo, hdont, hiac⟩

/-- After an IAC. -/
theorem next_iac (hs : t.state = .IAC) : Next t u v byte := by
  have hp : process_byte t byte = iac_byte t byte := by simp [process_byte, hs]
  have htell : (tell_step t byte).2 = (iac_byte t byte).events := by simp [tell_step, hs, hp]
  obtain ⟨hsaid, hdata, hdata_iac⟩ := says_iac_byte t byte
  apply h.next_of_said (by rw [hs]; rfl) _ rfl
  · rw [hp]
    rintro (hst | hst)
    · exact absurd hst hdata
    · exact absurd hst hdata_iac
  · rw [htell]
    exact hsaid

/-- The option of a subnegotiation. -/
theorem next_sb (hs : t.state = .SB) : Next t u v byte := by
  have hp : process_byte t byte
      = { telnet := { t with sb_telopt := byte, buffer := [], state := .SB_DATA } } := by
    simp [process_byte, hs]
  have htell : (tell_step t byte).2 = [] := by simp [tell_step, hs, hp]
  apply h.next_of_silent (by rw [hs]; rfl)
  · rw [htell]
    rfl
  · rw [htell]
    rfl
  · rw [hp]
    simp

omit h in
/-- A full buffer is no news, and nothing is passed on for it. -/
theorem silent_buffer_byte {w : Telnet} (hz : Sized w) (byte : UInt8) :
    news (buffer_byte w byte).2.1 = [] ∧ (buffer_byte w byte).2.1.flatMap relayed = [] := by
  rw [buffer_byte_events hz]
  split <;> exact ⟨rfl, rfl⟩

omit h in
/-- What `_buffer_byte` stores does not begin MCCP version 1 if the byte does
not. This is why the condition can be put on the bytes of the stream. -/
theorem mccp_buffer_byte {w : Telnet} (hz : Sized w) {byte : UInt8}
    (hw : w.sb_telopt = TELNET_TELOPT_COMPRESS → TELNET_WILL ∉ w.buffer)
    (hb : w.sb_telopt = TELNET_TELOPT_COMPRESS → byte ≠ TELNET_WILL) :
    (buffer_byte w byte).1.sb_telopt = TELNET_TELOPT_COMPRESS →
      TELNET_WILL ∉ (buffer_byte w byte).1.buffer := by
  obtain ⟨hopt, hbuf, -⟩ := buffer_byte_spec hz byte
  rw [hopt, hbuf]
  intro hc
  split
  · exact hw hc
  · simp only [List.mem_append, List.mem_singleton, not_or]
    exact ⟨hw hc, fun he => hb hc he.symm⟩

/-- Inside a subnegotiation the bytes are collected, and passed on all at once
at its end. -/
theorem next_sb_data (hs : t.state = .SB_DATA) (hskip : skips t byte = false) :
    Next t u v byte := by
  have hp : process_byte t byte = sb_data_byte t byte := by simp [process_byte, hs]
  have htell : (tell_step t byte).2 = (sb_data_byte t byte).events := by simp [tell_step, hs, hp]
  have hmccp := h.mccp (Or.inl hs)
  have hwill : t.sb_telopt = TELNET_TELOPT_COMPRESS → byte ≠ TELNET_WILL := by
    intro hc hb
    simp [skips, hs, hc, hb] at hskip
  obtain ⟨hnews, hquiet⟩ := silent_buffer_byte h.parse.left byte
  have hstored := mccp_buffer_byte h.parse.left hmccp hwill
  have hcompress : ¬ (t.sb_telopt = TELNET_TELOPT_COMPRESS ∧ byte = TELNET_WILL) :=
    fun hc => hwill hc.1 hc.2
  apply h.next_of_silent (by rw [hs]; rfl)
  · simp only [htell, sb_data_byte, if_neg hcompress]
    split_ifs
    · rfl
    · exact hnews
    · exact hnews
  · simp only [htell, sb_data_byte, if_neg hcompress]
    split_ifs
    · rfl
    · exact hquiet
    · exact hquiet
  · simp only [hp, sb_data_byte, if_neg hcompress]
    split_ifs
    · exact fun _ => hmccp
    · exact fun _ => hstored
    · simp

omit h in
/-- What a subnegotiation that is over tells is passed on as itself, once. The
library parses it into a second event as well, and the handler must not pass
that on, or it would arrive twice. -/
theorem says_subnegotiate {w : Telnet} (hz : Sized w)
    (hmccp : w.sb_telopt = TELNET_TELOPT_COMPRESS → TELNET_WILL ∉ w.buffer) :
    Says ((subnegotiate w).1.flatMap relayed) (subnegotiate w).1 := by
  have hmax : ∀ n ∈ buffer_sizes, n ≤ 16384 := by decide
  have hlen : w.buffer.length ≤ 16384 := Nat.le_trans hz.le (hmax _ hz.mem)
  have hrelay : (subnegotiate w).1.flatMap relayed
      = posted (telnet_subnegotiation w.sb_telopt w.buffer) := by
    -- what the bytes were decoded to is not passed on
    have hquiet : ∀ evs : List Event, (∀ ev ∈ evs, relayed ev = []) → evs.flatMap relayed = [] :=
      fun evs hevs => List.flatMap_eq_nil_iff.mpr hevs
    simp only [subnegotiate, List.flatMap_cons]
    rw [hquiet, List.append_nil]
    · rfl
    · unfold zmp_telnet ttype_telnet environ_telnet mssp_telnet
      repeat' split
      all_goals simp [relayed]
  rw [hrelay]
  exact says_subnegotiation hlen hmccp

/-- After an IAC inside a subnegotiation: its end, an escape, or the next
command, which cuts it short and is parsed as one. -/
theorem next_sb_data_iac (hs : t.state = .SB_DATA_IAC) : Next t u v byte := by
  have hverb : t.state.isVerb = false := by rw [hs]; rfl
  have hp : process_byte t byte = sb_data_iac_byte t byte := by simp [process_byte, hs]
  have htell :
      (tell_step t byte).2 = (sb_data_iac_byte t byte).events := by simp [tell_step, hs, hp]
  have hmccp := h.mccp (Or.inr hs)
  have hsub := says_subnegotiate h.parse.left hmccp
  by_cases hse : byte = TELNET_SE
  · rw [sb_data_iac_byte, if_pos hse] at hp htell
    apply h.next_of_said hverb _ rfl
    · rw [hp]
      simp
    · rw [htell]
      exact hsub
  · rw [sb_data_iac_byte, if_neg hse] at hp htell
    by_cases hiac : byte = TELNET_IAC
    · simp only [if_pos hiac] at hp htell
      obtain ⟨hnews, hquiet⟩ := silent_buffer_byte h.parse.left TELNET_IAC
      have hstored := mccp_buffer_byte h.parse.left hmccp fun _ => iac_ne_will
      apply h.next_of_silent hverb
      · rw [htell]
        split <;> exact hnews
      · rw [htell]
        split <;> exact hquiet
      · rw [hp]
        split
        · exact fun _ => hstored
        · simp
    · rw [if_neg hiac] at hp htell
      obtain ⟨hsaid, hdata, hdata_iac⟩ := says_iac_byte { t with state := .IAC } byte
      by_cases hagain : (subnegotiate t).2
      -- the library has forgotten the byte
      · simp only [if_pos hagain] at hp htell
        have hthis : Says ((tell_step t byte).2.flatMap relayed) (subnegotiate t).1 := by
          rw [htell]
          exact hsub
        apply h.next_of_said hverb hthis
        · rw [htell]
          rfl
        · rw [hp]
          simp
      · simp only [if_neg hagain] at hp htell
        have hthis : Says ((tell_step t byte).2.flatMap relayed)
            ((subnegotiate t).1 ++ (iac_byte { t with state := .IAC } byte).events) := by
          rw [htell, List.flatMap_cons, List.flatMap_append]
          exact hsub.append hsaid
        apply h.next_of_said hverb hthis
        · rw [htell]
          rfl
        · rw [hp]
          rintro (hst | hst)
          · exact absurd hst hdata
          · exact absurd hst hdata_iac

omit h in
/-- A whole option command, as it is passed on: three bytes, and the decision at
the third. -/
theorem reads_verb {w : Telnet} (hs : w.state = .DATA) (verb : UInt8) {st : State}
    (hverb : st.isVerb = true)
    (hiac : ∀ x : Telnet, iac_byte x verb = { telnet := { x with state := st } }) (byte : UInt8) :
    Reads w [TELNET_IAC, verb, byte]
      { (negotiate { w with state := st } byte).1 with state := .DATA }
        (negotiate { w with state := st } byte).2 := by
  have hskip : ∀ b, skips { w with state := st } b = false := by
    intro b
    cases st <;> first | rfl | cases hverb
  have hne : st ≠ .DATA := by
    rintro rfl
    cases hverb
  obtain ⟨htelnet, hevents⟩ := process_byte_verb { w with state := st } byte hverb
  have hopen : Reads { w with state := .IAC } [verb] { w with state := st } [] :=
    reads_byte (by simp [skips]) (by simp [tell_step, process_byte, hiac])
  have hlast : Reads { w with state := st } [byte] _ _ :=
    reads_byte (hskip byte)
      (by rw [tell_step, htelnet, hevents, if_neg fun hc => hne hc.1, List.nil_append])
  exact (goes_command hs).toReads.trans (hopen.trans hlast)

/-- An option command: `u` decides on it at once, `v` when it has been passed
on, with the same table and so to the same end. -/
theorem next_verb (hverb : t.state.isVerb = true) : Next t u v byte := by
  obtain ⟨htelnet, hevents⟩ := process_byte_verb t byte hverb
  obtain ⟨hutelnet, huevents⟩ := process_byte_verb u byte (by rw [h.parse.state]; exact hverb)
  have hnd : t.state ≠ .DATA := by
    intro hd
    rw [hd] at hverb
    cases hverb
  have htell : (tell_step t byte).2 = (negotiate t byte).2 := by simp [tell_step, hnd, hevents]
  have hutell : (tell_step u byte).2 = (negotiate u byte).2 := by
    simp [tell_step, h.parse.state, hnd, huevents]
  obtain ⟨hsame, htable⟩ := negotiate_congr (v := { v with state := t.state })
    ⟨h.table.q, h.table.q_size, h.table.telopts, h.table.flags⟩ h.parse.state.symm byte
  have hsized : Sized (negotiate { v with state := t.state } byte).1 :=
    (h.sized.setState _).negotiate byte
  -- in PROXY mode the table has no say, and the command is what is passed on
  have hproxy : (negotiate t byte).1 = t := by
    rw [negotiate, if_pos h.mode]
    split <;> rfl
  have hreads : Reads v ((negotiate t byte).2.flatMap relayed)
      { (negotiate { v with state := t.state } byte).1 with state := .DATA }
      (negotiate { v with state := t.state } byte).2 := by
    rw [negotiate, if_pos h.mode]
    cases hst : t.state
    case WILL => exact reads_verb h.ready TELNET_WILL rfl (fun _ => rfl) byte
    case WONT => exact reads_verb h.ready TELNET_WONT rfl (fun _ => rfl) byte
    case DO => exact reads_verb h.ready TELNET_DO rfl (fun _ => rfl) byte
    case DONT => exact reads_verb h.ready TELNET_DONT rfl (fun _ => rfl) byte
    all_goals
      rw [hst] at hverb
      cases hverb
  refine ⟨_, _, by rw [htell]; exact hreads, by rw [hutell, hsame], (h.parse.step byte).1, ?_, rfl,
    hsized.setState _, ?_, ?_⟩
  · rw [hutelnet]
    exact ⟨htable.q, htable.q_size, htable.telopts, htable.flags⟩
  · rw [htelnet, hproxy]
    exact h.mode
  · rw [htelnet]
    simp

/-- **One byte**, by the state of the parser that reads it first. -/
theorem next (hskip : skips t byte = false) : Next t u v byte := by
  cases hs : t.state with
  | DATA => exact h.next_data hs
  | IAC => exact h.next_iac hs
  | SB => exact h.next_sb hs
  | SB_DATA => exact h.next_sb_data hs hskip
  | SB_DATA_IAC => exact h.next_sb_data_iac hs
  | WILL | WONT | DO | DONT => exact h.next_verb (by rw [hs]; rfl)

omit h in
/-- **A stream.** By induction on its bytes, with the two trackers that read it
together and the third one command behind. -/
theorem run (stream : List UInt8) : ∀ {t u v : Telnet}, Tandem t u v → Plain t stream →
    ∃ v' evs, Reads v ((told t stream).flatMap relayed) v' evs ∧ news evs = news (told u stream)
      ∧ Tandem (feed byte_step t stream).1 (feed byte_step u stream).1 v' := by
  induction stream with
  | nil => exact fun {t u v} h _ => ⟨v, [], reads_nil v, rfl, h⟩
  | cons b stream ih =>
      intro t u v h hplain
      obtain ⟨v', evs, hreads, hnews, hnext⟩ := h.next hplain.1
      obtain ⟨v'', evs', hreads', hnews', hlast⟩ := ih hnext hplain.2
      refine ⟨v'', evs ++ evs', ?_, ?_, hlast⟩
      · rw [told_cons, List.flatMap_append]
        exact hreads.trans hreads'
      · rw [told_cons, news_append, news_append, hnews, hnews']

end Tandem

theorem SameParse.plain (bs : List UInt8) :
    ∀ {t u : Telnet}, SameParse t u → Plain t bs → Plain u bs := by
  induction bs with
  | nil => exact fun _ _ => trivial
  | cons b bs ih =>
      intro t u h hplain
      obtain ⟨hnext, hskips, -⟩ := h.step b
      exact ⟨hskips.trans hplain.1, ih hnext hplain.2⟩

/-- **Taken apart and put together again, a stream says the same**: `t` reads it
and passes on what it is told, and an end that reads that, in any blocks, is
told what it would have been told by the stream itself, warnings apart, and has
the same options afterwards. -/
theorem relay_transparent {t u : Telnet} (ht : t.state = .DATA) (htz : Sized t)
    (hmode : t.flags &&& TELNET_FLAG_PROXY ≠ 0) (hu : u.state = .DATA) (huz : Sized u)
    {blocks cut : List (List UInt8)} (hplain : Plain t blocks.flatten)
    (hcut : cut.flatten = (feed telnet_recv t blocks).2.flatMap relayed) :
    news (bytewise (feed telnet_recv u cut).2) = news (bytewise (feed telnet_recv u blocks).2)
      ∧ SameTable (feed telnet_recv u blocks).1 (feed telnet_recv u cut).1 := by
  have hparse : SameParse t u := by
    refine ⟨hu.trans ht.symm, ?_, htz, huz⟩
    rw [ht]
    simp
  have htandem : Tandem t u u := by
    refine ⟨hparse, SameTable.refl u, hu, huz, hmode, ?_⟩
    rw [ht]
    simp
  obtain ⟨v, evs, hreads, hnews, hlast⟩ := Tandem.run blocks.flatten htandem hplain
  have hout : cut.flatten = (told t blocks.flatten).flatMap relayed := by
    rw [hcut, ← relayed_bytewise, (recv_told blocks hplain).2]
  rw [← hout] at hreads
  obtain ⟨hfst, hsnd⟩ := recv_told cut hreads.plain
  obtain ⟨hfst', hsnd'⟩ := recv_told blocks (hparse.plain _ hplain)
  rw [hsnd, hsnd', hfst, hfst', hreads.told, hreads.after]
  exact ⟨hnews, hlast.table⟩

end AutoMag.Libtelnet
