/-
`Client/Trace.lean` -- what a trace shows.

The views read one kind of act out of a trace: the stream received, the readings
shown, the texts handed to `_input`, the bytes sent. Acts are sorted by who can cause
them (the stdin branch, the receive side, the message handler), and a view is blind
to the acts of a side that has no part in it; later files change the trace by a list
of acts of one side and let the views drop it.
-/
import AutoMag.Client.Projekat1

set_option autoImplicit false

namespace AutoMag.Client

open AutoMag.CMemory AutoMag.Libtelnet AutoMag.Machine

/-! ## Views of a trace -/

/-- The stream received on the socket. -/
def received (tr : List Act) : List UInt8 :=
  tr.flatMap fun | .recv r => r.bytes | _ => []

/-- The `lcdScreen` calls. -/
def shown (tr : List Act) : List Reading :=
  tr.flatMap fun | .lcdScreen r => [r] | _ => []

/-- The texts handed to `_input` by one branch. -/
def inputs (who : Origin) (tr : List Act) : List (List UInt8) :=
  tr.flatMap fun | .input w text _ => if w = who then [text] else [] | _ => []

/-- What one branch passes to `telnet_send`. -/
def sent (who : Origin) (tr : List Act) : List UInt8 :=
  tr.flatMap fun | .telnet_send w bytes => if w = who then bytes else [] | _ => []

/-- The bytes written to the socket. -/
def wire (tr : List Act) : List UInt8 :=
  tr.flatMap fun | .send _ bytes => bytes | _ => []

/-- The replies of the telnet layer, one for each `send`. -/
def replies (tr : List Act) : List (List UInt8) :=
  tr.flatMap fun | .send .reply bytes => [bytes] | _ => []

@[simp] theorem received_append (as bs : List Act) :
    received (as ++ bs) = received as ++ received bs := List.flatMap_append ..
@[simp] theorem shown_append (as bs : List Act) :
    shown (as ++ bs) = shown as ++ shown bs := List.flatMap_append ..
@[simp] theorem inputs_append (who : Origin) (as bs : List Act) :
    inputs who (as ++ bs) = inputs who as ++ inputs who bs := List.flatMap_append ..
@[simp] theorem sent_append (who : Origin) (as bs : List Act) :
    sent who (as ++ bs) = sent who as ++ sent who bs := List.flatMap_append ..
@[simp] theorem wire_append (as bs : List Act) :
    wire (as ++ bs) = wire as ++ wire bs := List.flatMap_append ..
@[simp] theorem replies_append (as bs : List Act) :
    replies (as ++ bs) = replies as ++ replies bs := List.flatMap_append ..

/-- A view that shows nothing of any act of a list shows nothing of the list.
All the views are `flatMap`s, which is why one lemma does for them. -/
theorem view_eq_nil {β : Type*} {f : Act → List β} {acts : List Act}
    (h : ∀ a ∈ acts, f a = []) : acts.flatMap f = [] := List.flatMap_eq_nil_iff.mpr h

/-! ## Acts of the telnet layer and of `_input` -/

/-- An act the telnet layer causes while it takes in a block. -/
def Act.ofReply : Act → Bool
  | .send .reply _ => true
  | .printf _ | .printf_on _ => true
  | _ => false

/-- An act of the stdin branch. -/
def Act.ofStdin : Act → Bool
  | .read _ => true
  | .scanf _ => true
  | .input .stdin _ _ => true
  | .telnet_send .stdin _ => true
  | .send .stdin _ => true
  | .printf _ => true
  | .fprintf _ => true
  | .telnet_free => true
  | .close => true
  | _ => false

/-- A reply is a `send` and nothing more. -/
theorem send_acts_ofReply (bytes : List UInt8) : ∀ a ∈ send_acts .reply bytes, a.ofReply := by
  unfold send_acts
  split <;> simp [Act.ofReply]

/-- What the handler does about an event, seen from outside: it sends a reply,
or prints. -/
theorem event_acts_ofReply (term : List UInt8) (ev : Event) :
    ∀ a ∈ event_acts term .reply ev, a.ofReply := by
  cases ev with
  | SEND bytes => exact send_acts_ofReply bytes
  | TTYPE cmd name =>
      simp only [event_acts, reply_acts]
      split
      -- `telnet_ttype_is` makes three `SEND`s, the middle one empty when TERM is
      · intro a ha
        obtain ⟨ev, hev, ha⟩ := List.mem_flatMap.mp ha
        cases ev with
        | SEND bytes => exact send_acts_ofReply bytes a ha
        | _ => cases ha
      · simp
  | DATA bytes | OVERREAD bytes => simp [event_acts, Act.ofReply]
  | _ => simp [event_acts, reply_acts]

/-- What the telnet layer notes for a block. -/
def recv_acts (term : List UInt8) (t : Telnet) (bytes : List UInt8) : List Act :=
  (telnet_recv t bytes).2.flatMap (event_acts term .reply)

/-- So nothing that a received block sets off inside the library is mistaken for
something the user typed. -/
theorem recv_acts_ofReply (term : List UInt8) (t : Telnet) (bytes : List UInt8) :
    ∀ a ∈ recv_acts term t bytes, a.ofReply := by
  intro a ha
  obtain ⟨ev, _, ha⟩ := List.mem_flatMap.mp ha
  exact event_acts_ofReply term ev a ha

/-- `telnet_recv` and its handler add to the trace exactly the acts of the
events, in their order. The events do not depend on what the handler does, so
they can be listed first and handled afterwards. -/
theorem client_recv_trace (term : List UInt8) (c : Session) (bytes : List UInt8)
    (hc : c.status = .running) :
    (client_recv term c bytes).trace = c.trace ++ recv_acts term c.telnet bytes := by
  rw [client_recv_spec term c bytes hc, recv_acts]

/-- The handler never ends the program. What `_send` does when a reply cannot be
sent is not in this model, where `send` delivers what it is given. -/
theorem client_recv_status (term : List UInt8) (c : Session) (bytes : List UInt8)
    (hc : c.status = .running) : (client_recv term c bytes).status = .running := by
  rw [client_recv_spec term c bytes hc]

/-- An act of the receive side other than showing a message. -/
def Act.ofRecv : Act → Bool
  | .recv _ => true
  | .send .reply _ => true
  | .printf _ | .printf_on _ => true
  | .fprintf _ => true
  | .telnet_free => true
  | .close => true
  | _ => false

/-- An act of the message handler once the message is complete. -/
def Act.ofCan : Act → Bool
  | .lcdScreen _ => true
  | .input .can _ _ => true
  | .telnet_send .can _ => true
  | .send .can _ => true
  | .printf _ => true
  | _ => false

/-- Something written to the socket. -/
def Act.isSend : Act → Bool
  | .send _ _ => true
  | _ => false

/-- The acts of the library are among those of the socket branch, which has the
results of `recv` and the ways out besides. -/
theorem Act.ofRecv_of_ofReply {a : Act} (h : a.ofReply) : a.ofRecv := by
  cases a with
  -- only the replies are sends of the receive side
  | send who bytes =>
      cases who
      · rfl
      · cases h
      · cases h
  | printf text | printf_on bytes => rfl
  | _ => cases h

/-! What is written to the socket is in the `send`s. -/

/-- For the wire only the `send`s count. -/
theorem wire_filter (acts : List Act) : wire acts = wire (acts.filter Act.isSend) := by
  induction acts with
  | nil => rfl
  | cons a acts ih =>
      cases a with
      | send who bytes => exact congrArg (bytes ++ ·) ih
      | _ => exact ih

theorem replies_filter (acts : List Act) : replies acts = replies (acts.filter Act.isSend) := by
  induction acts with
  | nil => rfl
  | cons a acts ih =>
      cases a with
      | send who bytes =>
          cases who
          · exact congrArg ([bytes] ++ ·) ih
          · exact ih
          · exact ih
      | _ => exact ih

/-! The views do not see the acts of the other side. -/

section Blind

variable {acts : List Act}

/-- Close a view on acts of one kind: each act it would show is not of that
kind. The lemmas that follow are this one, at one view and one kind each. -/
theorem view_blind {β : Type*} {f : Act → List β} {kind : Act → Bool}
    (hf : ∀ a, kind a → f a = []) (h : ∀ a ∈ acts, kind a) : acts.flatMap f = [] :=
  view_eq_nil fun a ha => hf a (h a ha)

theorem received_ofStdin (h : ∀ a ∈ acts, a.ofStdin) : received acts = [] :=
  view_blind (fun a ha => by cases a <;> first | rfl | cases ha) h

theorem shown_ofStdin (h : ∀ a ∈ acts, a.ofStdin) : shown acts = [] :=
  view_blind (fun a ha => by cases a <;> first | rfl | cases ha) h

theorem inputs_ofCan (h : ∀ a ∈ acts, a.ofCan) : inputs .stdin acts = [] :=
  view_blind (fun a ha => by
    cases a with
    | input who text size => cases who <;> first | rfl | cases ha
    | _ => rfl) h

theorem inputs_can_ofStdin (h : ∀ a ∈ acts, a.ofStdin) : inputs .can acts = [] :=
  view_blind (fun a ha => by
    cases a with
    | input who text size => cases who <;> first | rfl | cases ha
    | _ => rfl) h

theorem replies_ofStdin (h : ∀ a ∈ acts, a.ofStdin) : replies acts = [] :=
  view_blind (fun a ha => by
    cases a with
    | send who bytes => cases who <;> first | rfl | cases ha
    | _ => rfl) h

theorem shown_ofRecv (h : ∀ a ∈ acts, a.ofRecv) : shown acts = [] :=
  view_blind (fun a ha => by cases a <;> first | rfl | cases ha) h

theorem inputs_ofRecv (who : Origin) (h : ∀ a ∈ acts, a.ofRecv) : inputs who acts = [] :=
  view_blind (fun a ha => by cases a <;> first | rfl | cases ha) h

theorem sent_ofRecv (who : Origin) (h : ∀ a ∈ acts, a.ofRecv) : sent who acts = [] :=
  view_blind (fun a ha => by cases a <;> first | rfl | cases ha) h

theorem received_ofCan (h : ∀ a ∈ acts, a.ofCan) : received acts = [] :=
  view_blind (fun a ha => by cases a <;> first | rfl | cases ha) h

theorem replies_ofCan (h : ∀ a ∈ acts, a.ofCan) : replies acts = [] :=
  view_blind (fun a ha => by
    cases a with
    | send who bytes => cases who <;> first | rfl | cases ha
    | _ => rfl) h

theorem sent_ofCan (h : ∀ a ∈ acts, a.ofCan) : sent .stdin acts = [] :=
  view_blind (fun a ha => by
    cases a with
    | telnet_send who bytes => cases who <;> first | rfl | cases ha
    | _ => rfl) h

theorem received_ofReply (h : ∀ a ∈ acts, a.ofReply) : received acts = [] :=
  view_blind (fun a ha => by cases a <;> first | rfl | cases ha) h

end Blind

/-- What `_input` notes for a text, the call itself included. -/
def input_acts (who : Origin) (do_echo : Bool) (text : List UInt8) : List Act :=
  .input who text text.length :: text.flatMap (char_acts who do_echo)

/-- The acts of the characters: echo, `telnet_send`, `send`. A CR or an LF makes
two bytes of one, but no other kind of act. -/
theorem mem_chars_acts {who : Origin} {e : Bool} {text : List UInt8} {a : Act}
    (ha : a ∈ text.flatMap (char_acts who e)) :
    (∃ b, a = .printf b) ∨ (∃ b, a = .telnet_send who b) ∨ ∃ b, a = .send who b := by
  obtain ⟨b, _, ha⟩ := List.mem_flatMap.mp ha
  unfold char_acts at ha
  -- with the echo on there is one act more
  split at ha <;> simp only [List.mem_append, List.mem_cons, List.not_mem_nil, or_false,
    false_or] at ha
  · rcases ha with rfl | rfl | rfl
    · exact Or.inl ⟨_, rfl⟩
    · exact Or.inr (Or.inl ⟨_, rfl⟩)
    · exact Or.inr (Or.inr ⟨_, rfl⟩)
  · rcases ha with rfl | rfl
    · exact Or.inr (Or.inl ⟨_, rfl⟩)
    · exact Or.inr (Or.inr ⟨_, rfl⟩)

/-- And the call of `_input` itself, which stands in the trace before them. -/
theorem mem_input_acts {who : Origin} {e : Bool} {text : List UInt8} {a : Act}
    (ha : a ∈ input_acts who e text) :
    (∃ size, a = .input who text size) ∨ (∃ b, a = .printf b) ∨ (∃ b, a = .telnet_send who b)
      ∨ ∃ b, a = .send who b := by
  rcases List.mem_cons.mp ha with rfl | ha
  · exact Or.inl ⟨_, rfl⟩
  · exact Or.inr (mem_chars_acts ha)

theorem input_acts_ofStdin (e : Bool) (text : List UInt8) :
    ∀ a ∈ input_acts .stdin e text, a.ofStdin := by
  intro a ha
  rcases mem_input_acts ha with ⟨_, rfl⟩ | ⟨_, rfl⟩ | ⟨_, rfl⟩ | ⟨_, rfl⟩ <;> rfl

theorem input_acts_ofCan (e : Bool) (text : List UInt8) :
    ∀ a ∈ input_acts .can e text, a.ofCan := by
  intro a ha
  rcases mem_input_acts ha with ⟨_, rfl⟩ | ⟨_, rfl⟩ | ⟨_, rfl⟩ | ⟨_, rfl⟩ <;> rfl

section Views

variable {β : Type*} {f : Act → List β} {who : Origin} {e : Bool}

/-- A view that does not see the call of `_input` sees its characters one by
one. With this a fact about one character is a fact about any text. -/
theorem view_chars {g : UInt8 → List β} (hin : ∀ text size, f (.input who text size) = [])
    (hchar : ∀ b, (char_acts who e b).flatMap f = g b) (text : List UInt8) :
    (input_acts who e text).flatMap f = text.flatMap g := by
  rw [input_acts, List.flatMap_cons, hin, List.nil_append, List.flatMap_assoc]
  exact List.flatMap_congr fun b _ => hchar b

/-- A view that sees the call only: it sees the text as `_input` was given it,
once, and none of its characters. -/
theorem view_call (hprintf : ∀ b, f (.printf b) = []) (htelnet : ∀ b, f (.telnet_send who b) = [])
    (hsend : ∀ b, f (.send who b) = []) (text : List UInt8) :
    (input_acts who e text).flatMap f = f (.input who text text.length) := by
  have hchars : (text.flatMap (char_acts who e)).flatMap f = [] := by
    apply view_eq_nil
    intro a ha
    rcases mem_chars_acts ha with ⟨b, rfl⟩ | ⟨b, rfl⟩ | ⟨b, rfl⟩
    · exact hprintf b
    · exact htelnet b
    · exact hsend b
  rw [input_acts, List.flatMap_cons, hchars, List.append_nil]

/-- Several texts in a row, as the CAN setup sends them. -/
theorem view_texts {g : List UInt8 → List β}
    (h : ∀ text, (input_acts who e text).flatMap f = g text) (texts : List String) :
    (texts.flatMap fun t => input_acts who e (ascii t)).flatMap f
      = texts.flatMap fun t => g (ascii t) := by
  rw [List.flatMap_assoc]
  exact List.flatMap_congr fun t _ => h (ascii t)

end Views

/-- What `_input` passes to `telnet_send`: the text with every CR and LF made CR
LF, which is `crlf` of each character (`telnet-projekat1.c`, `_input`). -/
theorem sent_input_acts (who : Origin) (e : Bool) (text : List UInt8) :
    sent who (input_acts who e text) = text.flatMap crlf := by
  refine view_chars (fun _ _ => rfl) (fun b => ?_) text
  cases e <;> simp [char_acts]

/-- What it writes to the socket: the same once more with the IACs doubled. -/
theorem wire_input_acts (who : Origin) (e : Bool) (text : List UInt8) :
    wire (input_acts who e text) = text.flatMap fun b => escape (crlf b) := by
  refine view_chars (fun _ _ => rfl) (fun b => ?_) text
  cases e <;> simp [char_acts]

theorem inputs_input_acts (who : Origin) (e : Bool) (text : List UInt8) :
    inputs who (input_acts who e text) = [text] :=
  (view_call (fun _ => rfl) (fun _ => rfl) (fun _ => rfl) text).trans (if_pos rfl)

/-- Sending text shows nothing: `lcdScreen` is called in the socket branch
only. -/
theorem shown_texts (who : Origin) (e : Bool) (texts : List String) :
    shown (texts.flatMap fun t => input_acts who e (ascii t)) = [] := by
  apply view_eq_nil
  intro a ha
  obtain ⟨t, _, ha⟩ := List.mem_flatMap.mp ha
  rcases mem_input_acts ha with ⟨_, rfl⟩ | ⟨_, rfl⟩ | ⟨_, rfl⟩ | ⟨_, rfl⟩ <;> rfl

end AutoMag.Client
