/-
`Libtelnet/Told.lean` -- what the application is told, in order.

`Stream.lean` and `Data.lean` take the events of a block apart: those that are not
data, and the data. Here they are together, in the order the handler sees them, with
the data split into single bytes, since how it is cut is the network's doing
(`bytewise`). `told` is a machine over single bytes again, so no cut of the stream
shows in it.
-/
import AutoMag.Libtelnet.Data

set_option autoImplicit false

namespace AutoMag.Libtelnet

open AutoMag.Machine

/-! ## 1. Events up to the cut of the data -/

/-- The event, and if it is data one event for each byte. -/
def Event.bytewise : Event → List Event
  | .DATA bytes => bytes.map fun b => .DATA [b]
  | ev => [ev]

def bytewise (evs : List Event) : List Event := evs.flatMap Event.bytewise

@[simp] theorem bytewise_nil : bytewise [] = [] := rfl

@[simp] theorem bytewise_append (as bs : List Event) :
    bytewise (as ++ bs) = bytewise as ++ bytewise bs := List.flatMap_append ..

/-- An event that is not data, or one byte of it. -/
def Event.isSingle : Event → Bool
  | .DATA bytes => bytes.length = 1
  | _ => true

/-- Cutting does nothing to what is cut already. -/
theorem bytewise_of_single {evs : List Event} (h : ∀ ev ∈ evs, ev.isSingle) :
    bytewise evs = evs := by
  induction evs with
  | nil => rfl
  | cons ev evs ih =>
      have hone : ev.bytewise = [ev] := by
        have hev := h ev (List.mem_cons_self ..)
        cases ev with
        | DATA bytes =>
            obtain ⟨b, rfl⟩ := List.length_eq_one_iff.mp (of_decide_eq_true hev)
            rfl
        | _ => rfl
      rw [bytewise, List.flatMap_cons, hone, List.singleton_append]
      exact congrArg _ (ih fun ev hev => h ev (List.mem_cons_of_mem _ hev))

/-- A byte tells of data one byte at a time: what it raises itself is the second
IAC of a pair, or no data at all. -/
theorem bytewise_process_byte (t : Telnet) (byte : UInt8) :
    bytewise (process_byte t byte).events = (process_byte t byte).events := by
  apply bytewise_of_single
  intro ev hev
  rcases process_byte_single t byte ev hev with hc | rfl
  · cases ev <;> first | rfl | cases hc
  · rfl

/-! ## 2. The machine -/

/-- One byte: the tracker, and what the application is told. -/
def tell_step (t : Telnet) (byte : UInt8) : Telnet × List Event :=
  ((process_byte t byte).telnet,
    (if t.state = .DATA ∧ byte ≠ TELNET_IAC then [.DATA [byte]] else [])
      ++ (process_byte t byte).events)

/-- What the application is told of a stream. -/
def told (t : Telnet) (stream : List UInt8) : List Event := (feed tell_step t stream).2

/-- The stream nowhere begins MCCP version 1, which the library does not have: it
discards the byte behind the marker instead. -/
def Plain (t : Telnet) (stream : List UInt8) : Prop :=
  Along (fun t byte => (process_byte t byte).telnet) (fun t byte => skips t byte = false) t stream

/-- Telling changes nothing in the tracker, so what is known of the byte machine
is known of this one. -/
theorem feed_tell_fst (t : Telnet) (stream : List UInt8) :
    (feed tell_step t stream).1 = (feed byte_step t stream).1 := by
  rw [feed_fst tell_step fun _ _ => rfl, feed_fst byte_step fun _ _ => rfl]
  rfl

/-- A stream in two parts: the second is told by the tracker the first has
left. -/
theorem told_append (t : Telnet) (as bs : List UInt8) :
    told t (as ++ bs) = told t as ++ told (feed byte_step t as).1 bs := by
  rw [← feed_tell_fst]
  simp only [told, feed_append]

theorem told_cons (t : Telnet) (b : UInt8) (bs : List UInt8) :
    told t (b :: bs) = (tell_step t b).2 ++ told (process_byte t b).telnet bs := rfl

/-- Byte by byte nothing is told from behind the stream. A block can, where its
last byte has the next one discarded; a plain stream has no such byte. -/
theorem told_contained (t : Telnet) (stream : List UInt8) :
    ∀ ev ∈ told t stream, ev.isContained := by
  refine feed_outputs tell_step (I := fun _ => True) (fun _ _ _ => trivial) ?_ trivial stream
  intro t b _ ev hev
  rcases List.mem_append.mp hev with hev | hev
  · split at hev
    · rw [List.mem_singleton.mp hev]
      rfl
    · cases hev
  · exact process_byte_contained t b ev hev

/-! ## 3. The commands of a stream

The option commands, as the parser completes them, whatever the table makes of them. -/

/-- One byte: the tracker, and the command it completes. -/
def command_step (t : Telnet) (byte : UInt8) : Telnet × List (State × UInt8) :=
  ((process_byte t byte).telnet, if t.state.isVerb then [(t.state, byte)] else [])

def commands (t : Telnet) (stream : List UInt8) : List (State × UInt8) :=
  (feed command_step t stream).2

/-- One byte of a stream: it is the option of a command if a verb came before
it. -/
theorem commands_cons (t : Telnet) (b : UInt8) (bs : List UInt8) :
    commands t (b :: bs)
      = (if t.state.isVerb then [(t.state, b)] else []) ++ commands (process_byte t b).telnet bs :=
  rfl

theorem feed_command_fst (t : Telnet) (stream : List UInt8) :
    (feed command_step t stream).1 = (feed byte_step t stream).1 := by
  rw [feed_fst command_step fun _ _ => rfl, feed_fst byte_step fun _ _ => rfl]
  rfl

theorem commands_append (t : Telnet) (as bs : List UInt8) :
    commands t (as ++ bs) = commands t as ++ commands (feed byte_step t as).1 bs := by
  rw [← feed_command_fst]
  simp only [commands, feed_append]

/-- The table has no part in it: whatever the two ends have agreed on, a stream
has the same commands for both. -/
theorem SameParse.commands {t u : Telnet} (h : SameParse t u) (bs : List UInt8) :
    Libtelnet.commands u bs = Libtelnet.commands t bs
      ∧ (Machine.feed byte_step u bs).1.state = (Machine.feed byte_step t bs).1.state := by
  induction bs generalizing t u with
  | nil => exact ⟨rfl, h.state⟩
  | cons b bs ih =>
      obtain ⟨hcmds, hstate⟩ := ih (h.step b).1
      rw [commands_cons, commands_cons, hcmds, h.state]
      exact ⟨rfl, hstate⟩

/-! ## 4. It is what the blocks add up to -/

/-- The bytes of a `DATA` event that stays in its block, one by one. -/
theorem bytewise_data_event (buffer : List UInt8) {start i : ℕ} (h : start ≤ i) :
    bytewise (data_event buffer start i)
      = ((buffer.drop start).take (i - start)).map fun b => .DATA [b] := by
  unfold data_event
  split_ifs with heq hlt
  · simp [heq]
  · simp [bytewise, Event.bytewise]
  · omega

/-- The loop of `_process` from any point of any block on: in the DATA state the
bytes from `start` on are still to be told. That they are told before anything
the next command raises is what the order in the conclusion says. -/
theorem process_loop_told (rest : List UInt8) :
    ∀ (buffer : List UInt8) (i start : ℕ) (t : Telnet),
    buffer.drop i = rest → (t.state = .DATA → start ≤ i) → Plain t rest →
    bytewise (process_loop buffer rest i start t).2
      = ((pending buffer i start t).map fun b => .DATA [b]) ++ told t rest := by
  induction rest with
  | nil =>
      intro buffer i start t _ hstart _
      simp only [process_loop, pending, told, feed_nil, List.append_nil]
      split
      · next ht => exact bytewise_data_event buffer (hstart ht)
      · rfl
  | cons byte rest ih =>
      intro buffer i start t hdrop hstart hplain
      obtain ⟨hskip, hplain⟩ := hplain
      change Plain (process_byte t byte).telnet rest at hplain
      have hnext : buffer.drop (i + 1) = rest := by
        rw [← List.drop_drop, hdrop]
        rfl
      by_cases ht : t.state = .DATA
      · by_cases hb : byte = TELNET_IAC
        -- a command begins, and what is pending is passed on
        · subst hb
          have hp : process_byte t TELNET_IAC
              = { telnet := { t with state := .IAC }, flush := true } := by
            simp [process_byte, ht]
          have hih := ih buffer (i + 1) start { t with state := .IAC } hnext (by simp)
            (by rw [hp] at hplain; exact hplain)
          simp only [process_loop, hp, told_cons, tell_step, if_true, bytewise_append,
            bytewise_data_event buffer (hstart ht)]
          simp [hih, pending, ht]
        -- the run of data grows by the byte the loop is at
        · have hp : process_byte t byte = { telnet := t } := by simp [process_byte, ht, hb]
          have hle := hstart ht
          have hih := ih buffer (i + 1) start t hnext (fun _ => Nat.le_succ_of_le hle)
            (by rw [hp] at hplain; exact hplain)
          have hget : (buffer.drop start)[i - start]? = some byte := by
            rw [List.getElem?_drop, Nat.add_sub_cancel' hle, ← List.head?_drop, hdrop]
            rfl
          have hone : i + 1 - start = i - start + 1 := by omega
          simp only [process_loop, hp, told_cons, tell_step]
          simp [hih, pending, ht, hb, hone, List.take_add_one, hget]
      · have hout := process_byte_outside t byte ht
        have hsingle := bytewise_process_byte t byte
        have htell : (tell_step t byte).2 = (process_byte t byte).events := by
          simp [tell_step, ht]
        have hbefore : pending buffer i start t = [] := if_neg ht
        rw [told_cons, htell, hbefore]
        simp only [process_loop, hout.flush, Bool.false_eq_true, if_false, List.nil_append,
          List.map_nil, bytewise_append, hsingle]
        apply congrArg
        by_cases hagain : (process_byte t byte).again = true
        -- the rest of the block is a block of its own
        · have hih := ih rest 0 0 (process_byte t byte).telnet rfl (fun _ => Nat.le_refl 0) hplain
          rw [if_pos hagain, hih]
          simp [pending]
        -- a command that is over begins a new run after its last byte
        · have hstart' : (process_byte t byte).telnet.state = .DATA →
              ((process_byte t byte).start.map (i + ·)).getD start = i + 1 := by
            intro hd
            rw [hout.start hd (by simpa using hagain), hskip]
            rfl
          have hih := ih buffer (i + 1) (((process_byte t byte).start.map (i + ·)).getD start)
            (process_byte t byte).telnet hnext (fun hd => Nat.le_of_eq (hstart' hd)) hplain
          have hafter :
              pending buffer (i + 1) (((process_byte t byte).start.map (i + ·)).getD start)
              (process_byte t byte).telnet = [] := by
            unfold pending
            split
            · next hd => rw [hstart' hd, Nat.sub_self, List.take_zero]
            · rfl
          rw [if_neg hagain, hih, hafter]
          rfl

/-- **A block tells the application what its bytes do**, however long it is. The
loop starts with nothing pending, so the general statement collapses. -/
theorem telnet_recv_told (t : Telnet) (bs : List UInt8) (h : Plain t bs) :
    bytewise (telnet_recv t bs).2 = told t bs := by
  rw [telnet_recv, process_loop_told bs bs 0 0 t rfl (fun _ => Nat.le_refl 0) h]
  simp [pending]

/-- A plain stream is plain in both its parts, the second one from where the
first has left off. -/
theorem Plain.of_append {t : Telnet} {as bs : List UInt8} (h : Plain t (as ++ bs)) :
    Plain t as ∧ Plain (feed byte_step t as).1 bs := by
  induction as generalizing t with
  | nil => exact ⟨trivial, h⟩
  | cons a as ih =>
      obtain ⟨ha, hrest⟩ := ih h.2
      exact ⟨⟨h.1, ha⟩, hrest⟩

/-- **And so do the blocks a stream comes in**, wherever the cuts fall. This is
the induction the round trip and the proxy rest on. -/
theorem recv_told (blocks : List (List UInt8)) : ∀ {t : Telnet}, Plain t blocks.flatten →
    (feed telnet_recv t blocks).1 = (feed byte_step t blocks.flatten).1
      ∧ bytewise (feed telnet_recv t blocks).2 = told t blocks.flatten := by
  induction blocks with
  | nil =>
      intro t _
      exact ⟨rfl, rfl⟩
  | cons bs blocks ih =>
      intro t h
      rw [List.flatten_cons] at h ⊢
      obtain ⟨hbs, hrest⟩ := h.of_append
      rw [← telnet_recv_fst] at hrest
      obtain ⟨hfst, hsnd⟩ := ih hrest
      rw [feed_cons, feed_append, told_append, bytewise_append, telnet_recv_told t bs hbs, hsnd,
        hfst, telnet_recv_fst]
      exact ⟨rfl, rfl⟩

end AutoMag.Libtelnet
