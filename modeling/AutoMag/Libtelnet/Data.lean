/-
`Libtelnet/Data.lean` -- the data a telnet stream carries.

`data` is what is left of a stream when the commands are taken out, as a machine
over single bytes; by `telnet_recv_data` it is what the `DATA` events of a block
add up to. A feed does not see a cut, so neither does `data`. And it does not see a
complete command: one that brings the parser back to where it was, between two
data bytes, and leaves no data behind may stand there or not (`data_insert`).
-/
import AutoMag.Libtelnet.Stream

set_option autoImplicit false

namespace AutoMag.Libtelnet

open AutoMag.Machine

/-! ## The machine -/

/-- MCCP version 1 begins: the byte after this one is discarded unseen. -/
def skips (t : Telnet) (byte : UInt8) : Bool :=
  t.state = .SB_DATA ∧ t.sb_telopt = TELNET_TELOPT_COMPRESS ∧ byte = TELNET_WILL

/-- The data byte a byte of the stream is, if it is one. -/
def passed (t : Telnet) (skip : Bool) (byte : UInt8) : List UInt8 :=
  if t.state = .DATA then if byte = TELNET_IAC ∨ skip then [] else [byte]
  else if t.state = .IAC ∧ byte = TELNET_IAC then [byte]
  else []

/-- One byte: the tracker, whether the next byte is discarded, and the data. -/
def data_step (p : Telnet × Bool) (byte : UInt8) : (Telnet × Bool) × List UInt8 :=
  (((process_byte p.1 byte).telnet, skips p.1 byte), passed p.1 p.2 byte)

/-- The data a stream carries. -/
def data (t : Telnet) (stream : List UInt8) : List UInt8 := (feed data_step (t, false) stream).2

/-- Between two data bytes after a stream: no command is open. -/
def Between (t : Telnet) (stream : List UInt8) : Prop :=
  (feed data_step (t, false) stream).1.1.state = .DATA
    ∧ (feed data_step (t, false) stream).1.2 = false

instance (t : Telnet) (stream : List UInt8) : Decidable (Between t stream) :=
  inferInstanceAs (Decidable (_ ∧ _))

/-- Bytes without IAC are data, all of them, and the tracker does not move. -/
theorem feed_data_plain {p : Telnet × Bool} (hp : p.1.state = .DATA ∧ p.2 = false)
    {bs : List UInt8} (hbs : TELNET_IAC ∉ bs) : feed data_step p bs = (p, bs) := by
  obtain ⟨t, skip⟩ := p
  obtain ⟨ht, rfl⟩ := hp
  induction bs with
  | nil => rfl
  | cons b bs ih =>
      have hb : b ≠ TELNET_IAC := fun h => hbs (h ▸ List.mem_cons_self ..)
      have hstep : data_step (t, false) b = ((t, false), [b]) := by
        simp only at ht
        simp [data_step, process_byte, skips, passed, ht, hb]
      rw [feed_cons, hstep, ih fun h => hbs (List.mem_cons_of_mem _ h)]
      rfl

/-! ## It is what the `DATA` events deliver -/

/-- The bytes of the `DATA` events. -/
def delivered (evs : List Event) : List UInt8 :=
  evs.flatMap fun | .DATA bytes => bytes | _ => []

theorem delivered_append (as bs : List Event) :
    delivered (as ++ bs) = delivered as ++ delivered bs := List.flatMap_append ..

/-- A `DATA` event that does not wrap delivers the bytes from `start` up to
`i`. -/
theorem delivered_data_event (buffer : List UInt8) {start i : ℕ} (h : start ≤ i) :
    delivered (data_event buffer start i) = (buffer.drop start).take (i - start) := by
  unfold data_event
  split_ifs with heq hlt
  · simp [heq, delivered]
  · simp [delivered]
  · omega

/-- Events without data deliver nothing. -/
theorem delivered_eq_nil {evs : List Event} (h : ∀ ev ∈ evs, ev.isControl) : delivered evs = [] :=
  List.flatMap_eq_nil_iff.mpr fun ev hev => by
    have hc := h ev hev
    cases ev <;> first | rfl | cases hc

/-- In particular reports. -/
theorem delivered_report {evs : List Event} (h : ∀ ev ∈ evs, ev.isReport) : delivered evs = [] :=
  delivered_eq_nil fun ev hev => (Event.kinds_of_isReport (h ev hev)).1

theorem buffer_byte_state (t : Telnet) (byte : UInt8) : (buffer_byte t byte).1.state = t.state := by
  unfold buffer_byte
  simp only
  repeat' split
  all_goals rfl

/-- What one byte outside the DATA state means for the data: it passes the
second IAC of a pair on, and where it brings the parser back to the DATA state a
new run of data begins after it. -/
structure Outside (t : Telnet) (byte : UInt8) (p : Pass) : Prop where
  flush : p.flush = false
  events : delivered p.events = passed t false byte
  start : p.telnet.state = .DATA → p.again = false → p.start = some (if skips t byte then 2 else 1)
  again : p.again → skips t byte = false
  skips : skips t byte → p.telnet.state = .DATA

/-- After an IAC: an escaped IAC is data and the next stretch begins behind it;
a command of one byte ends where the next stretch begins; a verb goes on. -/
theorem iac_byte_outside (t : Telnet) (byte : UInt8) (ht : t.state = .IAC) :
    Outside t byte (iac_byte t byte) := by
  have hskip : Libtelnet.skips t byte = false := by simp [Libtelnet.skips, ht]
  unfold iac_byte
  repeat' split
  all_goals
    refine ⟨rfl, ?_, ?_, fun _ => hskip, by simp [hskip]⟩
    · simp_all [delivered, passed, TELNET_IAC, TELNET_SB, TELNET_WILL, TELNET_WONT, TELNET_DO,
        TELNET_DONT]
    · simp [hskip]

/-- Between the verb of a command and its end nothing is data. -/
theorem passed_eq_nil {t : Telnet} {skip : Bool} {byte : UInt8} (hd : t.state ≠ .DATA)
    (hi : t.state ≠ .IAC) : passed t skip byte = [] := by
  simp [passed, hd, hi]

/-- Outside of the DATA state a byte passes on what the machine says and leaves
`start` behind itself when it comes back. This is the case analysis over the
states of the parser; `step_outside` is all that uses it. -/
theorem process_byte_outside (t : Telnet) (byte : UInt8) (ht : t.state ≠ .DATA) :
    Outside t byte (process_byte t byte) := by
  cases hs : t.state <;> simp only [process_byte, hs]
  case DATA => exact absurd hs ht
  case IAC => exact iac_byte_outside t byte hs
  case SB =>
    have hskip : Libtelnet.skips t byte = false := by simp [Libtelnet.skips, hs]
    exact ⟨rfl, by simp [delivered, passed, hs], by simp, fun _ => hskip, by simp [hskip]⟩
  case SB_DATA =>
    have hnil : passed t false byte = [] := passed_eq_nil (by simp [hs]) (by simp [hs])
    have hev := delivered_report (buffer_byte_report t byte)
    have hst := buffer_byte_state t byte
    unfold sb_data_byte
    simp only
    split_ifs with h1 h2 h3
    · have hskip : Libtelnet.skips t byte = false := by
        simp [Libtelnet.skips, h1, TELNET_IAC, TELNET_WILL]
      exact ⟨rfl, hnil.symm, by simp, fun _ => hskip, by simp [hskip]⟩
    · have hskip : Libtelnet.skips t byte = true := by simp [Libtelnet.skips, hs, h2]
      exact ⟨rfl, hnil.symm, by simp [hskip], by simp, fun _ => rfl⟩
    all_goals
      have hskip : Libtelnet.skips t byte = false := by
        simp only [Libtelnet.skips, hs, true_and, decide_eq_false_iff_not]
        exact h2
      refine ⟨rfl, hev.trans hnil.symm, ?_, fun _ => hskip, by simp [hskip]⟩
      simp [hst, hs, hskip]
  case SB_DATA_IAC =>
    have hnil : passed t false byte = [] := passed_eq_nil (by simp [hs]) (by simp [hs])
    have hev := delivered_report (buffer_byte_report t TELNET_IAC)
    have hsub := delivered_report (subnegotiate_report t)
    have hskip : Libtelnet.skips t byte = false := by simp [Libtelnet.skips, hs]
    unfold sb_data_iac_byte
    simp only
    split_ifs with h1 h2 h3 h4
    · exact ⟨rfl, hsub.trans hnil.symm, by simp [hskip], fun _ => hskip, by simp [hskip]⟩
    · exact ⟨rfl, hev.trans hnil.symm, by simp, fun _ => hskip, by simp [hskip]⟩
    · exact ⟨rfl, hev.trans hnil.symm, by simp [hskip], fun _ => hskip, by simp [hskip]⟩
    · exact ⟨rfl, hsub.trans hnil.symm, by simp, fun _ => hskip, by simp [hskip]⟩
    -- the byte is read again in the IAC state, where it is no second IAC
    · have hiac := (iac_byte_outside { t with state := .IAC } byte rfl).events
      have hnone : passed { t with state := .IAC } false byte = [] := by simp [passed, h2]
      refine ⟨rfl, ?_, by simp [hskip], fun _ => hskip, by simp [hskip]⟩
      rw [hnil, ← List.singleton_append, delivered_append, delivered_append, hsub, hiac, hnone]
      rfl
  -- the four verbs: the option ends the command
  all_goals
    have hskip : Libtelnet.skips t byte = false := by simp [Libtelnet.skips, hs]
    have hnil : passed t false byte = [] := passed_eq_nil (by simp [hs]) (by simp [hs])
    have hev := delivered_eq_nil fun ev hev => (negotiate_kinds t byte ev hev).1
    exact ⟨rfl, hev.trans hnil.symm, by simp [hskip], fun _ => hskip, by simp [hskip]⟩

/-- No IAC stands where MCCP version 1 discards a byte: there the `size_t` of
the source wraps. -/
def Unwrapped (p : Telnet × Bool) : List UInt8 → Prop
  | [] => True
  | b :: bs => (p.2 → b ≠ TELNET_IAC) ∧ Unwrapped (data_step p b).1 bs

/-- The locals of the loop of `_process` before `buffer[i]`: in the DATA state
`start` is where the run of data began, or one further on when a byte is to be
discarded. -/
structure Holds (i start : ℕ) (t : Telnet) (skip : Bool) : Prop where
  in_data : skip → t.state = .DATA
  start_le : t.state = .DATA → if skip then start = i + 1 else start ≤ i

theorem Holds.first (t : Telnet) : Holds 0 0 t false := ⟨by simp, fun _ => Nat.le_refl 0⟩

/-- One byte on: what `start` becomes is what the invariant asks for, whether
the loop goes on in this block or the rest is a block of its own. -/
theorem Holds.next {i start : ℕ} {t : Telnet} {skip : Bool} (h : Holds i start t skip)
    (byte : UInt8) :
    if (process_byte t byte).again then Holds 0 0 (process_byte t byte).telnet (skips t byte)
    else Holds (i + 1) (((process_byte t byte).start.map (i + ·)).getD start)
      (process_byte t byte).telnet (skips t byte) := by
  by_cases ht : t.state = .DATA
  · have hs : skips t byte = false := by simp [skips, ht]
    rw [hs]
    by_cases hb : byte = TELNET_IAC
    · have hp : process_byte t byte = { telnet := { t with state := .IAC }, flush := true } := by
        simp [process_byte, ht, hb]
      rw [hp]
      exact ⟨by simp, by simp⟩
    · have hp : process_byte t byte = { telnet := t } := by simp [process_byte, ht, hb]
      have hstart := h.start_le ht
      rw [hp]
      refine ⟨by simp, fun _ => ?_⟩
      -- a byte of the run, or the one that is discarded, which `start` was ahead of
      cases skip with
      | false => exact Nat.le_succ_of_le hstart
      | true => exact Nat.le_of_eq hstart
  · have hout := process_byte_outside t byte ht
    by_cases hagain : (process_byte t byte).again = true
    · rw [if_pos hagain, hout.again hagain]
      exact Holds.first _
    · rw [if_neg hagain]
      refine ⟨hout.skips, fun hd => ?_⟩
      rw [hout.start hd (by simpa using hagain)]
      simp only [Option.map_some, Option.getD_some]
      split
      · rfl
      · exact Nat.le_refl _

/-- The loop before `rest`, the bytes of the block that are left, where no size
wraps. -/
structure InRun (buffer rest : List UInt8) (i start : ℕ) (t : Telnet) (skip : Bool) : Prop
    extends Holds i start t skip where
  drop_eq : buffer.drop i = rest
  unwrapped : Unwrapped (t, skip) rest

/-- The run of data the loop is in. -/
def pending (buffer : List UInt8) (i start : ℕ) (t : Telnet) : List UInt8 :=
  if t.state = .DATA then (buffer.drop start).take (i - start) else []

namespace InRun

variable {buffer rest : List UInt8} {i start : ℕ} {t : Telnet} {skip : Bool} {byte : UInt8}

theorem next_drop (h : InRun buffer (byte :: rest) i start t skip) :
    buffer.drop (i + 1) = rest := by
  rw [← List.drop_drop, h.drop_eq]
  rfl

/-- A byte of the loop: its events, and the loop from the next byte on, in the
same block or in a new one. -/
def Step (buffer rest : List UInt8) (i start : ℕ) (t : Telnet) (skip : Bool) (byte : UInt8) :
    Prop :=
  ∃ events buffer' i' start',
    (process_loop buffer (byte :: rest) i start t).2
        = events ++ (process_loop buffer' rest i' start' (process_byte t byte).telnet).2
      ∧ InRun buffer' rest i' start' (process_byte t byte).telnet (skips t byte)
      ∧ delivered events ++ pending buffer' i' start' (process_byte t byte).telnet
        = pending buffer i start t ++ passed t skip byte

/-- A command begins: what is pending is passed on, up to the IAC and without
it. -/
theorem step_iac (h : InRun buffer (byte :: rest) i start t skip) (ht : t.state = .DATA)
    (hb : byte = TELNET_IAC) : Step buffer rest i start t skip byte := by
  -- an IAC that is to be discarded is what `Unwrapped` rules out
  have hk : skip = false := by
    cases skip with
    | false => rfl
    | true => exact absurd hb (h.unwrapped.1 rfl)
  subst hk
  have hp : process_byte t byte = { telnet := { t with state := .IAC }, flush := true } := by
    simp [process_byte, ht, hb]
  have hnext := h.next byte
  rw [if_neg (by simp [hp])] at hnext
  refine ⟨data_event buffer start i, buffer, i + 1, start, ?_, ?_, ?_⟩
  · simp [process_loop, hp]
  · rw [hp] at hnext ⊢
    exact ⟨hnext, h.next_drop, by simpa [data_step, hp] using h.unwrapped.2⟩
  · rw [hp, delivered_data_event buffer (h.start_le ht)]
    simp [pending, passed, ht, hb]

/-- A byte of data, or the one that is discarded: `start` is behind it then, so
it is never pending. -/
theorem step_data (h : InRun buffer (byte :: rest) i start t skip) (ht : t.state = .DATA)
    (hb : byte ≠ TELNET_IAC) : Step buffer rest i start t skip byte := by
  have hp : process_byte t byte = { telnet := t } := by simp [process_byte, ht, hb]
  have hnext := h.next byte
  rw [if_neg (by simp [hp])] at hnext
  have hstart := h.start_le ht
  refine ⟨[], buffer, i + 1, start, ?_, ?_, ?_⟩
  · simp [process_loop, hp]
  · rw [hp] at hnext ⊢
    exact ⟨hnext, h.next_drop, by simpa [data_step, hp] using h.unwrapped.2⟩
  · rw [hp]
    cases skip with
    | true =>
        -- the discarded byte: nothing is pending before it or after it
        have hstart : start = i + 1 := hstart
        simp [pending, passed, delivered, ht, hstart]
    | false =>
        have hstart : start ≤ i := hstart
        -- the run grows by the byte the loop is at
        have hget : (buffer.drop start)[i - start]? = some byte := by
          rw [List.getElem?_drop, Nat.add_sub_cancel' hstart, ← List.head?_drop, h.drop_eq]
          rfl
        have hone : i + 1 - start = i - start + 1 := by omega
        simp [pending, passed, delivered, ht, hb, hone, List.take_add_one, hget]

/-- A byte of a command: nothing is pending, and what it passes on itself is
what the machine says. -/
theorem step_outside (h : InRun buffer (byte :: rest) i start t skip) (ht : t.state ≠ .DATA) :
    Step buffer rest i start t skip byte := by
  have hout := process_byte_outside t byte ht
  -- a byte is discarded in the DATA state only
  have hk : skip = false := by
    cases skip with
    | false => rfl
    | true => exact absurd (h.in_data rfl) ht
  subst hk
  have hnext := h.next byte
  have hrest : Unwrapped ((process_byte t byte).telnet, skips t byte) rest := h.unwrapped.2
  have hbefore : pending buffer i start t = [] := if_neg ht
  by_cases hagain : (process_byte t byte).again = true
  · -- the rest of the block is a block of its own
    rw [if_pos hagain] at hnext
    refine ⟨(process_byte t byte).events, rest, 0, 0, ?_, ⟨hnext, rfl, hrest⟩, ?_⟩
    · simp [process_loop, hout.flush, hagain]
    · rw [hout.events, hbefore]
      simp [pending]
  -- the loop goes on in this block, where nothing is pending behind a command
  · rw [if_neg hagain] at hnext
    refine ⟨(process_byte t byte).events, buffer, i + 1,
      ((process_byte t byte).start.map (i + ·)).getD start, ?_, ⟨hnext, h.next_drop, hrest⟩, ?_⟩
    · simp [process_loop, hout.flush, hagain]
    · rw [hout.events, hbefore]
      have hafter : pending buffer (i + 1) (((process_byte t byte).start.map (i + ·)).getD start)
          (process_byte t byte).telnet = [] := by
        unfold pending
        split
        · next hd =>
            rw [hout.start hd (by simpa using hagain)]
            simp only [Option.map_some, Option.getD_some]
            split <;> simp
        · rfl
      rw [hafter, List.append_nil, List.nil_append]

/-- **One byte of the loop**, in the three cases above. -/
theorem step (h : InRun buffer (byte :: rest) i start t skip) :
    Step buffer rest i start t skip byte := by
  by_cases ht : t.state = .DATA
  · by_cases hb : byte = TELNET_IAC
    · exact h.step_iac ht hb
    · exact h.step_data ht hb
  · exact h.step_outside ht

/-- The end of the block: what is pending is passed on. -/
theorem last (h : InRun buffer [] i start t skip) :
    delivered (process_loop buffer [] i start t).2 = pending buffer i start t := by
  simp only [process_loop, pending]
  split
  · next ht =>
      have hstart := h.start_le ht
      cases skip with
      | false => exact delivered_data_event buffer hstart
      | true =>
          -- the discarded byte is in the next block, so `start` is past the end
          have hstart : start = i + 1 := hstart
          rw [data_event, if_neg (by omega), if_neg (by omega), hstart,
            Nat.sub_eq_zero_of_le (by omega)]
          rfl
  · rfl

end InRun

/-- The loop of `_process` from any point of any block on. By induction on the
bytes left, each of them one `step`; the machine never mentions the block. -/
theorem process_loop_data (rest : List UInt8) :
    ∀ {buffer : List UInt8} {i start : ℕ} {t : Telnet} {skip : Bool},
    InRun buffer rest i start t skip →
    delivered (process_loop buffer rest i start t).2
      = pending buffer i start t ++ (feed data_step (t, skip) rest).2 := by
  induction rest with
  | nil =>
      intro buffer i start t skip h
      rw [h.last, feed_nil, List.append_nil]
  | cons byte rest ih =>
      intro buffer i start t skip h
      -- what the byte delivers and leaves pending is what was pending and what it passes on
      obtain ⟨events, buffer', i', start', hloop, hnext, hdata⟩ := h.step
      rw [hloop, delivered_append, ih hnext, ← List.append_assoc, hdata, feed_cons,
        List.append_assoc]
      rfl

/-- **The `DATA` events of a block are the data of its bytes.** The hypothesis
keeps out an IAC in the place of a byte to be discarded: there `i - start` wraps
in the middle of the block. -/
theorem telnet_recv_data (t : Telnet) (bs : List UInt8) (h : Unwrapped (t, false) bs) :
    delivered (telnet_recv t bs).2 = data t bs := by
  have hrun : InRun bs bs 0 0 t false := ⟨Holds.first t, rfl, h⟩
  rw [telnet_recv, process_loop_data bs hrun, data]
  simp [pending]

/-! ## Blocks no event reaches out of

`start = i + 2` looks ahead by a byte that may not be there, or may be an IAC. Then the next `DATA`
event has a size of -1, and an application that believes it reads behind the block. -/

/-- The event is within the block. -/
def Event.isContained : Event → Bool
  | .OVERREAD _ => false
  | _ => true

/-- A byte to be discarded is there to be discarded: the block does not end
before it, and it is no IAC. -/
def Clear (p : Telnet × Bool) : List UInt8 → Prop
  | [] => p.2 = false
  | b :: bs => (p.2 → b ≠ TELNET_IAC) ∧ Clear (data_step p b).1 bs

instance decidableClear (p : Telnet × Bool) : (bs : List UInt8) → Decidable (Clear p bs)
  | [] => inferInstanceAs (Decidable (_ = _))
  | b :: bs =>
      have := decidableClear (data_step p b).1 bs
      inferInstanceAs (Decidable ((p.2 → b ≠ TELNET_IAC) ∧ Clear (data_step p b).1 bs))

/-- A stream that does not wrap, and is not cut before a byte to be discarded,
raises no event that reaches out of it. -/
theorem Unwrapped.clear {p : Telnet × Bool} {bs : List UInt8} (h : Unwrapped p bs)
    (hlast : (feed data_step p bs).1.2 = false) : Clear p bs := by
  induction bs generalizing p with
  | nil => exact hlast
  | cons b bs ih => exact ⟨h.1, ih h.2 hlast⟩

/-- The `DATA` event at a point of the loop: `skip` decides whether its size
wraps. A size that has wrapped covers everything from `start` to the end of
memory, so the event is `OVERREAD` and no longer `DATA`. -/
theorem Holds.data_event {i start : ℕ} {t : Telnet} {skip : Bool} (h : Holds i start t skip)
    (ht : t.state = .DATA) (buffer : List UInt8) :
    if skip then Libtelnet.data_event buffer start i = [.OVERREAD (buffer.drop start)]
    else ∀ ev ∈ Libtelnet.data_event buffer start i, ev.isContained := by
  have hstart := h.start_le ht
  unfold Libtelnet.data_event
  cases skip with
  | true =>
      have hstart : start = i + 1 := hstart
      rw [if_pos rfl, if_neg (by omega), if_neg (by omega)]
  | false =>
      have hstart : start ≤ i := hstart
      rw [if_neg Bool.false_ne_true]
      split_ifs with heq hlt
      · simp
      · simp [Event.isContained]
      · omega

/-- What a byte raises itself is no data, or the byte itself: the second IAC of
a pair. -/
theorem process_byte_single (t : Telnet) (byte : UInt8) :
    ∀ ev ∈ (process_byte t byte).events, ev.isControl ∨ ev = .DATA [byte] := by
  have hiac : ∀ t : Telnet, ∀ ev ∈ (iac_byte t byte).events, ev.isControl ∨ ev = .DATA [byte] := by
    intro t
    unfold iac_byte
    split_ifs <;> simp [Event.isControl]
  have hreport : ∀ evs : List Event, (∀ ev ∈ evs, ev.isReport) →
      ∀ ev ∈ evs, ev.isControl ∨ ev = .DATA [byte] :=
    fun evs h ev hev => Or.inl (Event.kinds_of_isReport (h ev hev)).1
  cases hs : t.state <;> simp only [process_byte, hs]
  case DATA => split <;> simp
  case IAC => exact hiac t
  case SB => simp
  case SB_DATA =>
    have hbuf := hreport _ (buffer_byte_report t byte)
    unfold sb_data_byte
    simp only
    split_ifs
    · simp
    · simp
    · exact hbuf
    · exact hbuf
  case SB_DATA_IAC =>
    have hsub := hreport _ (subnegotiate_report t)
    have hbuf := hreport _ (buffer_byte_report t TELNET_IAC)
    unfold sb_data_iac_byte
    simp only
    split_ifs
    · exact hsub
    · exact hbuf
    · exact hbuf
    · exact List.forall_mem_cons.mpr ⟨Or.inl rfl, hsub⟩
    · refine List.forall_mem_cons.mpr ⟨Or.inl rfl, fun ev hev => ?_⟩
      rcases List.mem_append.mp hev with hev | hev
      · exact hsub ev hev
      · exact hiac _ ev hev
  all_goals exact fun ev hev => Or.inl (negotiate_kinds t byte ev hev).1

/-- So it stays within the block. -/
theorem process_byte_contained (t : Telnet) (byte : UInt8) :
    ∀ ev ∈ (process_byte t byte).events, ev.isContained := by
  intro ev hev
  rcases process_byte_single t byte ev hev with hc | rfl
  · cases ev <;> first | rfl | cases hc
  · rfl

/-- What is pending is passed on where a command begins, and at no other
byte. -/
theorem flush_iac {t : Telnet} {byte : UInt8} (hf : (process_byte t byte).flush = true) :
    t.state = .DATA ∧ byte = TELNET_IAC := by
  have ht : t.state = .DATA := by
    by_contra hd
    rw [(process_byte_outside t byte hd).flush] at hf
    cases hf
  refine ⟨ht, ?_⟩
  by_contra hb
  simp [process_byte, ht, hb] at hf

/-- The loop of `_process` from any point of any block on. `Clear` is consumed
byte by byte, and says at each flush and at the end that nothing is to be
discarded there. -/
theorem process_loop_contained (rest : List UInt8) :
    ∀ {buffer : List UInt8} {i start : ℕ} {t : Telnet} {skip : Bool}, Holds i start t skip →
    Clear (t, skip) rest →
    ∀ ev ∈ (process_loop buffer rest i start t).2, ev.isContained := by
  induction rest with
  | nil =>
      intro buffer i start t skip h hclear
      have hskip : skip = false := hclear
      subst hskip
      simp only [process_loop]
      split
      · next ht => exact h.data_event ht buffer
      · simp
  | cons byte rest ih =>
      intro buffer i start t skip h hclear
      have hnext := h.next byte
      have hflush : ∀ ev ∈ (if (process_byte t byte).flush then data_event buffer start i else []),
          ev.isContained := by
        split
        · next hf =>
            -- the IAC is not the byte to be discarded
            obtain ⟨ht, hb⟩ := flush_iac hf
            cases skip with
            | false => exact h.data_event ht buffer
            | true => exact absurd hb (hclear.1 rfl)
        · simp
      simp only [process_loop]
      intro ev hev
      rcases List.mem_append.mp hev with hev | hev
      · rcases List.mem_append.mp hev with hev | hev
        · exact hflush ev hev
        · exact process_byte_contained t byte ev hev
      · split at hev
        · next hagain =>
            rw [if_pos hagain] at hnext
            exact ih hnext hclear.2 ev hev
        · next hagain =>
            rw [if_neg hagain] at hnext
            exact ih hnext hclear.2 ev hev

/-- **A clear block stays within itself**: none of its events has more bytes
than it was given. -/
theorem telnet_recv_contained {t : Telnet} {bs : List UInt8} (h : Clear (t, false) bs) :
    ∀ ev ∈ (telnet_recv t bs).2, ev.isContained :=
  process_loop_contained bs (Holds.first t) h

/-! ## What the parser goes by

The option table has no part in the parsing, and outside a subnegotiation neither
has the buffer; the space allocated for it never has, since it grows as needed up to
one limit. -/

/-- The buffer is within the space allocated, which has one of the sizes. -/
structure Sized (t : Telnet) : Prop where
  le : t.buffer.length ≤ t.buffer_size
  mem : t.buffer_size ∈ buffer_sizes

/-- The trackers parse alike from here on. -/
structure SameParse (t u : Telnet) : Prop where
  state : u.state = t.state
  sb : t.state = .SB_DATA ∨ t.state = .SB_DATA_IAC → u.sb_telopt = t.sb_telopt ∧ u.buffer = t.buffer
  left : Sized t
  right : Sized u

/-- Negotiating touches the table, and the buffer of subnegotiations not at
all. -/
theorem Sized.negotiate {t : Telnet} (h : Sized t) (telopt : UInt8) :
    Sized (Libtelnet.negotiate t telopt).1 := by
  rcases negotiate_fst t telopt with heq | ⟨us, him, heq⟩
  · rw [heq]
    exact h
  · rw [heq]
    unfold set_rfc1143
    split <;> exact ⟨h.le, h.mem⟩

theorem Sized.setState {t : Telnet} (h : Sized t) (state : State) :
    Sized { t with state := state } := ⟨h.le, h.mem⟩

/-- The sizes but the last have a next one, larger by one at least. So
`_buffer_byte` finds room after growing the buffer once. -/
theorem buffer_sizes_next : ∀ n ∈ buffer_sizes, n ≠ 16384 →
    ¬ buffer_sizes.length - 1 ≤ buffer_sizes.findIdx (· = n)
      ∧ n + 1 ≤ buffer_sizes.getD (buffer_sizes.findIdx (· = n) + 1) 0
      ∧ buffer_sizes.getD (buffer_sizes.findIdx (· = n) + 1) 0 ∈ buffer_sizes := by
  decide

/-- `_buffer_byte` fails at the limit and nowhere else. A byte that does not fit
is dropped with a warning, and the parser goes on. -/
theorem buffer_byte_spec {t : Telnet} (h : Sized t) (byte : UInt8) :
    (buffer_byte t byte).1.sb_telopt = t.sb_telopt
      ∧ (buffer_byte t byte).1.buffer
        = (if t.buffer.length = 16384 then t.buffer else t.buffer ++ [byte])
      ∧ (buffer_byte t byte).2.2 = decide (t.buffer.length ≠ 16384)
      ∧ Sized (buffer_byte t byte).1 := by
  have hle := h.le
  unfold buffer_byte
  -- `buffer_size` is one of five sizes, so full at the largest is the only failure
  by_cases hfull : t.buffer.length = t.buffer_size
  · rw [if_pos hfull]
    by_cases hlimit : t.buffer_size = 16384
    · have hlast : buffer_sizes.length - 1 ≤ buffer_sizes.findIdx (· = t.buffer_size) := by
        rw [hlimit]
        decide
      simp only [hfull, hlimit, if_true]
      exact ⟨rfl, rfl, rfl, h⟩
    · obtain ⟨hnot, hmore, hmem⟩ := buffer_sizes_next t.buffer_size h.mem hlimit
      simp only [if_neg hnot, hfull, hlimit, if_false]
      refine ⟨trivial, trivial, by simpa using hlimit, ?_, hmem⟩
      simp only [List.length_append, List.length_singleton, hfull]
      exact hmore
  · have hbound : ∀ n ∈ buffer_sizes, n ≤ 16384 := by decide
    have hmax := hbound _ h.mem
    rw [if_neg hfull]
    have hne : t.buffer.length ≠ 16384 := by omega
    simp only [hne]
    refine ⟨trivial, rfl, by simpa using hne, ?_, h.mem⟩
    simp only [List.length_append, List.length_singleton]
    omega

/-- The same command leaves the two tables as different as they were, and the
parsers together. -/
theorem SameParse.negotiate {t u : Telnet} (h : SameParse t u) (byte : UInt8) :
    SameParse { (Libtelnet.negotiate t byte).1 with state := .DATA }
      { (Libtelnet.negotiate u byte).1 with state := .DATA } :=
  ⟨rfl, by simp, (h.left.negotiate byte).setState _, (h.right.negotiate byte).setState _⟩

/-- The same change of state on both sides. Inside a subnegotiation they have to
agree on its buffer as well, and that is given where it begins. -/
theorem SameParse.setState {t u : Telnet} (h : SameParse t u) {state : State}
    (hsb : (state = .SB_DATA ∨ state = .SB_DATA_IAC) →
      u.sb_telopt = t.sb_telopt ∧ u.buffer = t.buffer) :
    SameParse { t with state := state } { u with state := state } :=
  ⟨rfl, hsb, h.left.setState _, h.right.setState _⟩

theorem SameParse.iac {t u : Telnet} (h : SameParse t u) (byte : UInt8) :
    SameParse (iac_byte t byte).telnet (iac_byte u byte).telnet := by
  unfold iac_byte
  split_ifs <;> exact h.setState (by simp)

/-- **The trackers stay together**, byte by byte, and pass the same data on. The
options they have agreed on, their flags and old buffers play no part in it. -/
theorem SameParse.step {t u : Telnet} (h : SameParse t u) (byte : UInt8) :
    SameParse (process_byte t byte).telnet (process_byte u byte).telnet
      ∧ skips u byte = skips t byte ∧ ∀ skip, passed u skip byte = passed t skip byte := by
  refine ⟨?_, ?_, fun skip => by simp [passed, h.state]⟩
  · have hu := h.state
    cases hs : t.state <;> rw [hs] at hu <;> simp only [process_byte, hs, hu]
    case DATA =>
      split
      · exact h.setState (by simp)
      · exact h
    case IAC => exact h.iac byte
    -- a new subnegotiation forgets the option and the buffer of the one before
    case SB =>
      exact ⟨rfl, fun _ => ⟨rfl, rfl⟩, ⟨Nat.zero_le _, h.left.mem⟩, ⟨Nat.zero_le _, h.right.mem⟩⟩
    case SB_DATA =>
      -- inside a subnegotiation the two trackers hold the same option and bytes, and by
      -- `buffer_byte_spec` fill up at the same byte
      obtain ⟨hopt, hbuf⟩ := h.sb (Or.inl hs)
      obtain ⟨hopt₁, hbuf₁, hok₁, hsized₁⟩ := buffer_byte_spec h.left byte
      obtain ⟨hopt₂, hbuf₂, hok₂, hsized₂⟩ := buffer_byte_spec h.right byte
      rw [hbuf] at hbuf₂ hok₂
      have hcompress : u.sb_telopt = TELNET_TELOPT_COMPRESS ∧ byte = TELNET_WILL
          ↔ t.sb_telopt = TELNET_TELOPT_COMPRESS ∧ byte = TELNET_WILL := by rw [hopt]
      unfold sb_data_byte
      simp only [hcompress, hok₁, hok₂]
      split_ifs
      · exact h.setState fun _ => ⟨hopt, hbuf⟩
      · exact h.setState (by simp)
      · refine ⟨?_, fun _ => ⟨?_, ?_⟩, hsized₁, hsized₂⟩
        · rw [buffer_byte_state, buffer_byte_state, hs, hu]
        · rw [hopt₁, hopt₂, hopt]
        · rw [hbuf₁, hbuf₂]
      · exact ⟨rfl, by simp, hsized₁.setState _, hsized₂.setState _⟩
    case SB_DATA_IAC =>
      obtain ⟨hopt, hbuf⟩ := h.sb (Or.inr hs)
      obtain ⟨hopt₁, hbuf₁, hok₁, hsized₁⟩ := buffer_byte_spec h.left TELNET_IAC
      obtain ⟨hopt₂, hbuf₂, hok₂, hsized₂⟩ := buffer_byte_spec h.right TELNET_IAC
      rw [hbuf] at hbuf₂ hok₂
      -- `_subnegotiate` reads the option and the buffer, which are the same
      have hsub : subnegotiate u = subnegotiate t := by simp only [subnegotiate, hopt, hbuf]
      unfold sb_data_iac_byte
      simp only [hok₁, hok₂, hsub]
      split_ifs
      · exact h.setState (by simp)
      · refine ⟨rfl, fun _ => ⟨?_, ?_⟩, hsized₁.setState _, hsized₂.setState _⟩
        · rw [hopt₁, hopt₂, hopt]
        · rw [hbuf₁, hbuf₂]
      · exact ⟨rfl, by simp, hsized₁.setState _, hsized₂.setState _⟩
      · exact h.setState (by simp)
      · have hiac : SameParse { t with state := .IAC } { u with state := .IAC } :=
          h.setState (by simp)
        exact hiac.iac byte
    all_goals exact h.negotiate byte
  · by_cases hs : t.state = .SB_DATA
    · simp [skips, h.state, (h.sb (Or.inl hs)).1]
    · simp [skips, h.state, hs]

theorem SameParse.refl {t : Telnet} (h : Sized t) : SameParse t t :=
  ⟨rfl, fun _ => ⟨rfl, rfl⟩, h, h⟩

theorem SameParse.symm {t u : Telnet} (h : SameParse t u) : SameParse u t := by
  refine ⟨h.state.symm, fun hs => ?_, h.right, h.left⟩
  rw [h.state] at hs
  exact ⟨(h.sb hs).1.symm, (h.sb hs).2.symm⟩

/-- Trackers that parse alike discard the same bytes. -/
theorem SameParse.clear (bs : List UInt8) : ∀ {t u : Telnet} {skip : Bool}, SameParse t u →
    Clear (t, skip) bs → Clear (u, skip) bs := by
  induction bs with
  | nil => exact fun _ hclear => hclear
  | cons b bs ih =>
      intro t u skip h hclear
      refine ⟨hclear.1, ?_⟩
      have hrest := ih (h.step b).1 hclear.2
      rw [data_step, (h.step b).2.1]
      exact hrest

/-- The same over a whole stream: so an end with any options and any past reads
what a fresh one does, once both are between two commands. -/
theorem SameParse.feed (bs : List UInt8) : ∀ {t u : Telnet} (skip : Bool), SameParse t u →
    SameParse (Machine.feed data_step (t, skip) bs).1.1 (Machine.feed data_step (u, skip) bs).1.1
      ∧ (Machine.feed data_step (u, skip) bs).2 = (Machine.feed data_step (t, skip) bs).2 := by
  induction bs with
  | nil =>
      intro t u _ h
      exact ⟨h, rfl⟩
  | cons b bs ih =>
      intro t u skip h
      obtain ⟨hstep, hskip, hpassed⟩ := h.step b
      obtain ⟨hend, hdata⟩ := ih (skips t b) hstep
      have hu : data_step (u, skip) b
          = (((process_byte u b).telnet, skips t b), passed t skip b) := by
        rw [data_step, hskip, hpassed]
      rw [feed_cons, feed_cons, hu]
      refine ⟨hend, ?_⟩
      simp only
      rw [hdata]
      rfl

/-! ## Commands that leave no data behind -/

theorem data_append (t : Telnet) (as bs : List UInt8) :
    data t (as ++ bs)
      = data t as ++ (feed data_step (feed data_step (t, false) as).1 bs).2 := by
  simp only [data, feed_append]

/-- **A complete command may stand in the stream or not.** What follows it is
read by a tracker that differs in the table only. -/
theorem data_insert {t : Telnet} (ht : Sized t) {pre cmd : List UInt8} (hpre : Between t pre)
    (hcmd : Between t (pre ++ cmd)) (hdata : data t (pre ++ cmd) = data t pre)
    (post : List UInt8) : data t (pre ++ cmd ++ post) = data t (pre ++ post) := by
  rw [data_append t (pre ++ cmd) post, data_append t pre post, hdata]
  congr 1
  have hsized : ∀ bs, Sized (feed data_step (t, false) bs).1.1 :=
    fun bs => (SameParse.feed bs false (SameParse.refl ht)).1.left
  -- before and after the command no subnegotiation is open, so the trackers parse alike
  -- though the command may have changed the option table
  have hsame : SameParse (feed data_step (t, false) pre).1.1
      (feed data_step (t, false) (pre ++ cmd)).1.1 :=
    ⟨hcmd.1.trans hpre.1.symm, by simp [hpre.1], hsized _, hsized _⟩
  have heq := (hsame.feed post false).2
  have hpair : ∀ {bs}, Between t bs →
      (feed data_step (t, false) bs).1 = ((feed data_step (t, false) bs).1.1, false) :=
    fun h => Prod.ext rfl h.2
  rw [hpair hpre, hpair hcmd]
  exact heq

/-- The second stream is the first with complete commands inserted, each between
two data bytes. -/
inductive Inserted (t : Telnet) (stream : List UInt8) : List UInt8 → Prop
  | same : Inserted t stream stream
  | insert {pre cmd post : List UInt8} (h : Inserted t stream (pre ++ post))
      (hpre : Between t pre) (hcmd : Between t (pre ++ cmd))
      (hdata : data t (pre ++ cmd) = data t pre) : Inserted t stream (pre ++ cmd ++ post)

/-- Any number of them, at any places. -/
theorem Inserted.data_eq {t : Telnet} (ht : Sized t) {stream stream' : List UInt8}
    (h : Inserted t stream stream') : data t stream' = data t stream := by
  induction h with
  | same => rfl
  | insert _ hpre hcmd hdata ih => rw [data_insert ht hpre hcmd hdata, ih]

/-- From between two data bytes to between two data bytes, whatever the tracker
there has in its table. -/
theorem Between.append {t : Telnet} {pre cmd : List UInt8} (h : Between t pre)
    (hcmd : ∀ u : Telnet, u.state = .DATA → (feed data_step (u, false) cmd).1.1.state = .DATA
      ∧ (feed data_step (u, false) cmd).1.2 = false ∧ (feed data_step (u, false) cmd).2 = []) :
    Between t (pre ++ cmd) ∧ data t (pre ++ cmd) = data t pre := by
  obtain ⟨hstate, hskip, hout⟩ := hcmd _ h.1
  have hpair : (feed data_step (t, false) pre).1
      = ((feed data_step (t, false) pre).1.1, false) := Prod.ext rfl h.2
  rw [Between, data_append, feed_append, hpair]
  exact ⟨⟨hstate, hskip⟩, by rw [hout, List.append_nil]⟩

/-- `IAC` and a byte that is a command on its own. -/
theorem between_iac {t : Telnet} {pre : List UInt8} (h : Between t pre) {b : UInt8}
    (hb : b ∉ [TELNET_SB, TELNET_WILL, TELNET_WONT, TELNET_DO, TELNET_DONT, TELNET_IAC]) :
    Between t (pre ++ [TELNET_IAC, b]) ∧ data t (pre ++ [TELNET_IAC, b]) = data t pre := by
  simp only [List.mem_cons, List.not_mem_nil, or_false, not_or] at hb
  obtain ⟨h1, h2, h3, h4, h5, h6⟩ := hb
  apply h.append
  intro u hu
  simp [feed, data_step, process_byte, iac_byte, skips, passed, hu, h1, h2, h3, h4, h5, h6]

end AutoMag.Libtelnet
