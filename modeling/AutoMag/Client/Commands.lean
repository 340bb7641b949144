/-
`Client/Commands.lean` -- the command lines that reach the Carberry.

The stdin branch and the message handler write to one stream of text. `Desk` reads
a trace and says which command lines the operations in it call for; the question is
whether the text sent, cut into lines, is those. After every operation the trailing
`_input(buffer, rs)` sends one byte more: the key `s`, the first letter of the
command just formatted, or the NUL `bzero` left. That byte is never part of a
command, so `commands_whole_iff` finds the lines right in exactly the runs in which
no operation was performed.
-/
import AutoMag.Client.Leds
import AutoMag.Lib.Lines

set_option autoImplicit false

namespace AutoMag.Client

open AutoMag.CMemory AutoMag.Libtelnet AutoMag.Machine AutoMag.Lines

/-! ## The text sent -/

/-- What both branches pass to `telnet_send`, the replies of the telnet layer
left out. -/
def text_sent (tr : List Act) : List UInt8 :=
  tr.flatMap fun
    | .telnet_send who bytes => if who = .reply then [] else bytes
    | _ => []

@[simp] theorem text_sent_append (as bs : List Act) :
    text_sent (as ++ bs) = text_sent as ++ text_sent bs := List.flatMap_append ..

theorem text_sent_read (r : Result) (acts : List Act) :
    text_sent (.read r :: acts) = text_sent acts := rfl

theorem text_sent_scanf (v : Option ℤ) (acts : List Act) :
    text_sent (.scanf v :: acts) = text_sent acts := rfl

theorem text_sent_printf (text : List UInt8) (acts : List Act) :
    text_sent (.printf text :: acts) = text_sent acts := rfl

theorem text_sent_prompts (texts : List String) :
    text_sent (texts.map fun text => .printf (ascii text)) = [] := by
  induction texts with
  | nil => rfl
  | cons t texts ih => rw [List.map_cons, text_sent_printf, ih]

theorem text_sent_input_acts {who : Origin} (hwho : who ≠ .reply) (e : Bool) (text : List UInt8) :
    text_sent (input_acts who e text) = text.flatMap crlf := by
  refine view_chars (fun _ _ => rfl) (fun b => ?_) text
  cases e <;> simp [char_acts, hwho]

theorem text_sent_texts {who : Origin} (hwho : who ≠ .reply) (e : Bool) (texts : List String) :
    text_sent (texts.flatMap fun t => input_acts who e (ascii t))
      = (texts.flatMap ascii).flatMap crlf := by
  rw [List.flatMap_assoc]
  exact view_texts (text_sent_input_acts hwho e) texts

theorem text_sent_ofRecv {acts : List Act} (h : ∀ a ∈ acts, a.ofRecv) : text_sent acts = [] :=
  view_blind (fun a ha => by cases a <;> first | rfl | cases ha) h

theorem weight_crlf (text : List UInt8) : weight (text.flatMap crlf) = weight text := by
  have hone : ∀ b, weight (crlf b) = weight [b] := by
    intro b
    unfold crlf
    split
    · next hb => rcases hb with rfl | rfl <;> decide
    · rfl
  induction text with
  | nil => rfl
  | cons b text ih =>
      rw [List.flatMap_cons, weight_append, hone, ih, ← weight_append, List.singleton_append]

/-! ## The lines that are called for -/

/-- The seven lines of the CAN setup. -/
def setup_lines : List (List UInt8) :=
  ["AT", "GPLED LED1 CLEAR", "GPLED LED2 CLEAR", "CAN USER ALIGN RIGHT", "CAN USER OPEN CH2 83k3",
    "CAN USER FILTER CH2 0 0010", "CAN USER MASK CH2 0010"].map ascii

/-- The two lines for a message on a new side. -/
def pair_lines : Led → List (List UInt8)
  | .one => ["GPLED LED1 SET", "GPLED LED2 CLEAR"].map ascii
  | .two => ["GPLED LED2 SET", "GPLED LED1 CLEAR"].map ascii

/-- Reading a trace: inside the submenu or not, the mode whose baud rate is
still to come, the side of the last message, and the lines called for so far. -/
structure Desk where
  lin : Bool
  mode : Option LinMode
  last : Option Led
  lines : List (List UInt8)

def Desk.start : Desk := ⟨false, none, none, []⟩

/-- More lines are called for. -/
def Desk.call (d : Desk) (ls : List (List UInt8)) : Desk := { d with lines := d.lines ++ ls }

/-- A key, a number and a message are what operations are made of. -/
def Desk.note (d : Desk) : Act → Desk
  | .read (.data c) =>
      -- inside the submenu a key ends it, whichever it is
      if d.lin then
        if c.key = chr '6' then { d.call [ascii "LIN CLOSE"] with lin := false }
        else { d with lin := false, mode := LinMode.of_key c.key }
      else if c.key = chr 's' then d.call setup_lines
      else if c.key = chr 'l' then { d with lin := true }
      else d
  | .scanf (some baud) =>
      -- a number counts only after a key that asks for one
      match d.mode with
      | some m => { d.call [m.line baud] with mode := none }
      | none => d
  | .lcdScreen r =>
      -- only a message on another side than the last calls for a pair
      if d.last = some (side r.speed) then d
      else { d.call (pair_lines (side r.speed)) with last := some (side r.speed) }
  | _ => d

/-- What a trace calls for. -/
def desk (tr : List Act) : Desk := tr.foldl Desk.note .start

/-- An act that is no part of an operation. -/
def Act.unnoted : Act → Bool
  | .read _ => false
  | .scanf _ => false
  | .lcdScreen _ => false
  | _ => true

theorem desk_unnoted {acts : List Act} (h : ∀ a ∈ acts, a.unnoted) : ∀ d : Desk,
    acts.foldl Desk.note d = d := by
  induction acts with
  | nil => exact fun d => rfl
  | cons a acts ih =>
      intro d
      have ha := h a (List.mem_cons_self ..)
      have hnote : d.note a = d := by cases a <;> first | rfl | cases ha
      rw [List.foldl_cons, hnote, ih (fun a' h' => h a' (List.mem_cons_of_mem _ h'))]

theorem unnoted_ofRecv {acts : List Act} (h : ∀ a ∈ acts, a.ofRecv) : ∀ a ∈ acts, a.unnoted := by
  intro a ha
  have hof := h a ha
  cases a <;> first | rfl | cases hof

theorem unnoted_input_acts (who : Origin) (e : Bool) (text : List UInt8) :
    ∀ a ∈ input_acts who e text, a.unnoted := by
  intro a ha
  rcases mem_input_acts ha with ⟨_, rfl⟩ | ⟨_, rfl⟩ | ⟨_, rfl⟩ | ⟨_, rfl⟩ <;> rfl

theorem unnoted_texts (who : Origin) (e : Bool) (texts : List String) :
    ∀ a ∈ texts.flatMap (fun t => input_acts who e (ascii t)), a.unnoted := by
  intro a ha
  obtain ⟨t, _, ha⟩ := List.mem_flatMap.mp ha
  exact unnoted_input_acts who e _ a ha

theorem unnoted_prompts (texts : List String) :
    ∀ a ∈ texts.map (fun text => Act.printf (ascii text)), a.unnoted := by
  intro a ha
  obtain ⟨text, _, rfl⟩ := List.mem_map.mp ha
  rfl

/-! ## One operation -/

/-- The lines of an operation. -/
def Op.lines : Op → List (List UInt8)
  | .setup => setup_lines
  | .lin_open mode baud => [mode.line baud.toInt]
  | .lin_close => [ascii "LIN CLOSE"]

theorem desk_op (op : Op) (e : Bool) (d : Desk) (hlin : d.lin = false) (hmode : d.mode = none) :
    (op.acts e).foldl Desk.note d = d.call op.lines := by
  obtain ⟨lin, mode, last, ls⟩ := d
  cases hlin
  cases hmode
  -- of all an operation notes, only its keys and its number are read
  have hmenu : ∀ d, menu_prompts.foldl Desk.note d = d := desk_unnoted (unnoted_prompts _)
  have hlin : ∀ d, lin_prompts.foldl Desk.note d = d := desk_unnoted (unnoted_prompts _)
  have hin := fun text => desk_unnoted (unnoted_input_acts .stdin e text)
  have htexts := fun ts => desk_unnoted (unnoted_texts .stdin e ts)
  have hl : chr 'l' ≠ chr 's' := by decide
  cases op with
  | setup =>
      simp only [Op.acts, setup_acts, List.foldl_cons, List.foldl_append, hmenu, hin, htexts]
      simp [Desk.note, keystroke, Chunk.key, Op.lines]
  | lin_open m baud =>
      have h6 : m.key ≠ chr '6' := by cases m <;> decide
      simp only [Op.acts, List.cons_append, List.foldl_cons, List.foldl_append, List.foldl_nil,
        hmenu, hlin, hin]
      simp [Desk.note, keystroke, Chunk.key, Op.lines, hl, h6, LinMode.of_key_key, Desk.call]
  | lin_close =>
      simp only [Op.acts, List.cons_append, List.foldl_cons, List.foldl_append, List.foldl_nil,
        hmenu, hlin, hin]
      simp [Desk.note, keystroke, Chunk.key, Op.lines, hl, Desk.call]

/-- The text an operation sends: its lines, and one byte. -/
theorem text_sent_op (op : Op) (e : Bool) :
    text_sent (op.acts e) = match op with
      | .setup => (setup_texts.flatMap ascii).flatMap crlf ++ [chr 's'].flatMap crlf
      | .lin_open m baud =>
          (m.line baud.toInt ++ ascii "\r\n").flatMap crlf ++ [chr 'L'].flatMap crlf
      | .lin_close => (ascii "LIN CLOSE\r").flatMap crlf ++ [0].flatMap crlf := by
  have hmenu : text_sent menu_prompts = [] := text_sent_prompts _
  have hlin : text_sent lin_prompts = [] := text_sent_prompts _
  have hnil : text_sent [] = [] := rfl
  have hin := fun text => text_sent_input_acts (by decide : Origin.stdin ≠ .reply) e text
  have htexts := text_sent_texts (by decide : Origin.stdin ≠ .reply) e setup_texts
  cases op with
  | setup =>
      simp only [Op.acts, setup_acts, text_sent_read, text_sent_append, hmenu, hin, htexts,
        List.nil_append]
  | lin_open m baud =>
      simp only [Op.acts, List.cons_append, text_sent_read, text_sent_append, text_sent_printf,
        text_sent_scanf, hmenu, hlin, hin, hnil, List.nil_append]
  | lin_close =>
      simp only [Op.acts, List.cons_append, text_sent_read, text_sent_append, hmenu, hlin, hin,
        hnil, List.nil_append]

/-- An operation sends one byte more than its lines hold. That byte weighs
something, so no cutting into lines can make up for it. -/
theorem weight_op (op : Op) (e : Bool) :
    weight (text_sent (op.acts e)) = weights op.lines + 1 := by
  rw [text_sent_op]
  cases op with
  | setup =>
      rw [weight_append, weight_crlf, weight_crlf]
      decide +kernel
  | lin_open m baud =>
      -- line ends weigh nothing, so the `L` is what there is too much of
      have hends : weight (ascii "\r\n") = 0 := by decide
      have hL : weight [chr 'L'] = 1 := by decide
      rw [weight_append, weight_crlf, weight_crlf, weight_append, Op.lines, weights_cons, hends, hL]
      rfl
  | lin_close =>
      rw [weight_append, weight_crlf, weight_crlf]
      decide +kernel

/-! ## One message -/

/-- A pair is two whole lines, whatever follows. -/
theorem lines_pair (l : Led) (rest : List UInt8) :
    lines (((pair_texts l).flatMap ascii).flatMap crlf ++ rest) = pair_lines l ++ lines rest := by
  -- cut the text at its last two line ends
  have hcut : ∃ x y, ((pair_texts l).flatMap ascii).flatMap crlf
        = x ++ 13 :: 10 :: (y ++ 13 :: 10 :: []) ∧ lines x ++ lines y = pair_lines l := by
    cases l with
    | one =>
        exact ⟨(ascii "\r\n\r\n GPLED LED1 SET"), ascii "GPLED LED2 CLEAR", by decide +kernel,
          by decide +kernel⟩
    | two =>
        exact ⟨ascii "GPLED LED2 SET", ascii "GPLED LED1 CLEAR", by decide +kernel,
          by decide +kernel⟩
  obtain ⟨x, y, htext, hlines⟩ := hcut
  rw [htext, ← hlines]
  simp only [List.append_assoc, List.cons_append, List.nil_append, lines_append]

/-- The text for a message: a pair of lines when the side changes. -/
theorem text_sent_led_acts (e : Bool) (last : Option Led) (speed : ℕ) :
    text_sent (led_acts e last speed) = if last = some (side speed) then []
      else ((pair_texts (side speed)).flatMap ascii).flatMap crlf := by
  rw [led_acts, text_sent_texts (by decide)]
  split <;> rfl

theorem desk_led_acts (e : Bool) (last : Option Led) (speed : ℕ) (d : Desk) :
    (led_acts e last speed).foldl Desk.note d = d := desk_unnoted (unnoted_texts .can e _) d

/-! ## Whole runs -/

/-- Something has been read from stdin. -/
def Operated (tr : List Act) : Prop := ∃ r, .read r ∈ tr

/-- Between passes: whole operations are still to come, the reading of the trace
is between operations, and either an operation has been performed and more has
been sent than its lines hold, or none has and every line is right. -/
structure CommandInv (s : Main) : Prop extends LedInv s where
  todo : ∃ ops : List Op, s.stdin = ops.flatMap Op.keys ∧ s.scanfs = ops.flatMap Op.bauds
  lin : (desk s.session.trace).lin = false
  mode : (desk s.session.trace).mode = none
  last : (desk s.session.trace).last = last_side none (shown s.session.trace)
  balance : (Operated s.session.trace
      ∧ weights (desk s.session.trace).lines < weight (text_sent s.session.trace))
    ∨ (¬ Operated s.session.trace ∧ ∀ rest,
        lines (text_sent s.session.trace ++ rest) = (desk s.session.trace).lines ++ lines rest)

theorem desk_append (as bs : List Act) : desk (as ++ bs) = bs.foldl Desk.note (desk as) :=
  List.foldl_append

theorem operated_append (as bs : List Act) : Operated (as ++ bs) ↔ Operated as ∨ Operated bs := by
  simp [Operated, exists_or]

theorem not_operated_unnoted {acts : List Act} (h : ∀ a ∈ acts, a.unnoted) : ¬ Operated acts := by
  rintro ⟨r, hr⟩
  cases h _ hr

/-- Up to now nothing too little has been sent: the weight of the text is at
least that of the lines it should have. -/
theorem CommandInv.enough {s : Main} (h : CommandInv s) :
    weights (desk s.session.trace).lines ≤ weight (text_sent s.session.trace) := by
  rcases h.balance with ⟨_, hlt⟩ | ⟨_, hlines⟩
  · exact hlt.le
  · rw [← lines_eq_of_append hlines, weights_lines]

theorem CommandInv.of_silent {s s' : Main} (h : CommandInv s) (hled : LedInv s')
    (hstdin : s'.stdin = s.stdin) (hscanfs : s'.scanfs = s.scanfs) {acts : List Act}
    (htr : s'.session.trace = s.session.trace ++ acts) (hun : ∀ a ∈ acts, a.unnoted)
    (hsent : text_sent acts = []) : CommandInv s' := by
  have hdesk : desk s'.session.trace = desk s.session.trace := by
    rw [htr, desk_append, desk_unnoted hun]
  have hshown : shown s'.session.trace = shown s.session.trace := by
    rw [htr, shown_append]
    refine List.append_right_eq_self.mpr (view_eq_nil fun a ha => ?_)
    have hof := hun a ha
    cases a <;> first | rfl | cases hof
  have htext : text_sent s'.session.trace = text_sent s.session.trace := by
    rw [htr, text_sent_append, hsent, List.append_nil]
  have hop : Operated s'.session.trace ↔ Operated s.session.trace := by
    rw [htr, operated_append]
    simp [not_operated_unnoted hun]
  refine ⟨hled, ?_, ?_, ?_, ?_, ?_⟩
  · rw [hstdin, hscanfs]
    exact h.todo
  · rw [hdesk]; exact h.lin
  · rw [hdesk]; exact h.mode
  · rw [hdesk, hshown]; exact h.last
  · rw [hdesk, htext, hop]; exact h.balance

/-- An operation: its lines, and a byte too many. From here on there is more
text than lines, and messages send no more than they should. -/
theorem CommandInv.op {s s' : Main} (h : CommandInv s) (hled : LedInv s') (op : Op)
    (htodo : ∃ ops : List Op, s'.stdin = ops.flatMap Op.keys ∧ s'.scanfs = ops.flatMap Op.bauds)
    (htr : s'.session.trace = s.session.trace ++ op.acts s.session.do_echo)
    (hshown : shown s'.session.trace = shown s.session.trace) : CommandInv s' := by
  have hdesk : desk s'.session.trace = (desk s.session.trace).call op.lines := by
    rw [htr, desk_append, desk_op op _ _ h.lin h.mode]
  refine ⟨hled, htodo, ?_, ?_, ?_, Or.inl ⟨?_, ?_⟩⟩
  · rw [hdesk]; exact h.lin
  · rw [hdesk]; exact h.mode
  · rw [hdesk, hshown]; exact h.last
  · rw [htr, operated_append]
    refine Or.inr ?_
    cases op
    · exact ⟨_, List.mem_cons_self ..⟩
    · exact ⟨keystroke (chr 'l'), by simp [Op.acts]⟩
    · exact ⟨keystroke (chr 'l'), by simp [Op.acts]⟩
  -- the operation's own text weighs one more than its lines, and before it nothing was
  -- missing
  · have henough := h.enough
    have hweight := weight_op op s.session.do_echo
    rw [hdesk, htr, text_sent_append, weight_append, Desk.call, weights_append]
    omega

theorem CommandInv.stdin {term : List UInt8} {s s' : Main} (h : CommandInv s)
    (hstep : StdinStep term s s') : CommandInv s' := by
  have hled := h.toLedInv.stdin hstep
  cases hstep with
  | idle => exact h
  | failed =>
      have htr : s.leave.session.trace = s.session.trace ++ [.telnet_free, .close] := rfl
      exact h.of_silent hled rfl rfl htr (by simp [Act.unnoted]) rfl
  | @branch r q past hs hq =>
      obtain ⟨ops, hstdin, hscanfs⟩ := h.todo
      -- what is on stdin is the keys of the operations to come, so the next one is performed
      -- as a whole
      cases ops with
      | nil => rw [hq] at hstdin; cases hstdin
      | cons op ops =>
          obtain ⟨hstdin', hscanfs', hsession⟩ := stdin_branch_op term past hs hstdin hscanfs
          have htr : (stdin_branch term past s).session.trace
              = s.session.trace ++ op.acts s.session.do_echo := by rw [hsession]; rfl
          refine h.op hled op ⟨ops, hstdin', hscanfs'⟩ htr ?_
          obtain ⟨acts, hacts, hof⟩ := (stdin_branch_frame term past s hs).session.trace
          rw [hacts, shown_append, shown_ofStdin hof, List.append_nil]

theorem CommandInv.recv {s s' : Main} (h : CommandInv s) {term : List UInt8} {x y : List UInt8}
    (hframe : RecvFrame term s s' x y) :
    CommandInv s' := by
  obtain ⟨acts, htr, hof, _⟩ := hframe.trace
  exact h.of_silent (h.toLedInv.recv hframe) hframe.stdin hframe.scanfs htr (unnoted_ofRecv hof)
    (text_sent_ofRecv hof)

/-- What showing a message does to both sides: nothing, or the pair of its
side. -/
theorem CommandInv.show_effect {s : Main} (h : CommandInv s) (term : List UInt8)
    (hs : s.session.status = .running) (hid : id_matches s.dataBuffer.bytes) :
    ∃ ls text, (∀ rest, lines (text ++ rest) = ls ++ lines rest)
      ∧ text_sent (show_message term s).session.trace = text_sent s.session.trace ++ text
      ∧ desk (show_message term s).session.trace
        = { (desk s.session.trace).call ls with
            last := some (side (reading s.dataBuffer.bytes).speed) }
      ∧ (Operated (show_message term s).session.trace ↔ Operated s.session.trace) := by
  rw [show_message_pos term s _ hs h.flags hid]
  simp only [Main.setLeds_session, Main.log_session, Session.log_trace]
  generalize reading s.dataBuffer.bytes = r
  -- the program's flags and the desk agree on the side of the last message
  have hlast := h.last
  generalize last_side none (shown s.session.trace) = last at hlast ⊢
  have hop : Operated (s.session.trace
      ++ .lcdScreen r :: led_acts s.session.do_echo last r.speed) ↔ Operated s.session.trace := by
    have hno : ¬ Operated (led_acts s.session.do_echo last r.speed) :=
      not_operated_unnoted (unnoted_texts .can _ _)
    rw [operated_append]
    refine ⟨fun h => h.resolve_right fun ⟨x, hx⟩ => hno ⟨x, ?_⟩, Or.inl⟩
    exact (List.mem_cons.mp hx).resolve_left (by simp)
  have hdesk : desk (s.session.trace ++ .lcdScreen r :: led_acts s.session.do_echo last r.speed)
      = (desk s.session.trace).note (.lcdScreen r) := by
    rw [desk_append, List.foldl_cons, desk_led_acts]
  have htext : text_sent (s.session.trace
      ++ .lcdScreen r :: led_acts s.session.do_echo last r.speed)
      = text_sent s.session.trace ++ if last = some (side r.speed) then []
        else ((pair_texts (side r.speed)).flatMap ascii).flatMap crlf := by
    rw [text_sent_append, ← text_sent_led_acts s.session.do_echo]
    rfl
  -- the same side as before: nothing is sent and nothing called for
  by_cases hl : last = some (side r.speed)
  · refine ⟨[], [], fun rest => rfl, by rw [htext, if_pos hl], ?_, hop⟩
    rw [hdesk]
    have hd : (desk s.session.trace).last = some (side r.speed) := hlast.trans hl
    rw [Desk.note, if_pos hd, ← hd, Desk.call, List.append_nil]
  · refine ⟨pair_lines (side r.speed), _, lines_pair (side r.speed), by rw [htext, if_neg hl], ?_,
      hop⟩
    rw [hdesk]
    simp [Desk.note, hlast, hl]

theorem CommandInv.show {s : Main} (h : CommandInv s) (term : List UInt8)
    (hs : s.session.status = .running) : CommandInv (show_message term s) := by
  have hled := h.toLedInv.show term hs
  have hframe := show_message_frame term s hs
  by_cases hid : id_matches s.dataBuffer.bytes
  · obtain ⟨ls, text, hls, htext, hdesk, hop⟩ := h.show_effect term hs hid
    have hshown := h.shown_show term hs hid
    refine ⟨hled, ?_, ?_, ?_, ?_, ?_⟩
    · rw [hframe.stdin, hframe.scanfs]
      exact h.todo
    · rw [hdesk]; exact h.lin
    · rw [hdesk]; exact h.mode
    · rw [hdesk, hshown, last_side_append]
    · rw [hop, htext, hdesk]
      simp only [Desk.call, weight_append, weights_append]
      rcases h.balance with ⟨hyes, hlt⟩ | ⟨hno, hlines⟩
      · have hw : weights ls = weight text := by
          rw [← lines_eq_of_append hls, weights_lines]
        exact Or.inl ⟨hyes, by omega⟩
      · refine Or.inr ⟨hno, fun rest => ?_⟩
        rw [List.append_assoc, hlines, hls, List.append_assoc]
  · rw [show_message_neg term s hid]
    exact h

/-- **Whole commands.** Of all runs in which stdin supplies menu operations, the
text sent is the lines of what was done in exactly those in which no operation
was performed. -/
theorem commands_whole_iff (term : List UInt8) (b r d : CArray 512) (ops : List Op)
    (socket : List Result) (polls : List Poll) :
    lines (text_sent (main_loop term (Main.start b r d (ops.flatMap Op.keys)
        (ops.flatMap Op.bauds) socket) polls).session.trace)
      = (desk (main_loop term (Main.start b r d (ops.flatMap Op.keys)
        (ops.flatMap Op.bauds) socket) polls).session.trace).lines
    ↔ ¬ Operated (main_loop term (Main.start b r d (ops.flatMap Op.keys)
        (ops.flatMap Op.bauds) socket) polls).session.trace := by
  have hstart : CommandInv (Main.start b r d (ops.flatMap Op.keys) (ops.flatMap Op.bauds) socket) :=
    ⟨led_inv_start b r d _ _ socket, ⟨ops, rfl, rfl⟩, rfl, rfl, rfl,
      Or.inr ⟨by simp [Operated, Main.start, Session.start], fun _ => rfl⟩⟩
  have hend := main_loop_invariant term (I := CommandInv) (fun _ _ hstep h => h.stdin hstep)
    (fun _ _ _ _ hframe h => h.recv hframe) (fun _ hs h => h.show term hs) hstart polls
  rcases hend.balance with ⟨hyes, hlt⟩ | ⟨hno, hlines⟩
  · -- the lines weigh as much as the text, which is more than was called for
    refine ⟨fun heq => ?_, fun hno => absurd hyes hno⟩
    rw [← heq, weights_lines] at hlt
    omega
  · exact ⟨fun _ => hno, fun _ => lines_eq_of_append hlines⟩

/-- The CAN setup alone: after its seven lines comes an eighth, `s`. -/
theorem setup_key_sent :
    lines (text_sent (main_loop [] (Main.start (.fill 512 0) (.fill 512 0) (.fill 512 0)
        ([Op.setup].flatMap Op.keys) ([Op.setup].flatMap Op.bauds) [])
        [.ready true false [] []]).session.trace)
      ≠ (desk (main_loop [] (Main.start (.fill 512 0) (.fill 512 0) (.fill 512 0)
        ([Op.setup].flatMap Op.keys) ([Op.setup].flatMap Op.bauds) [])
        [.ready true false [] []]).session.trace).lines := by
  have hpass : main_loop [] (Main.start (.fill 512 0) (.fill 512 0) (.fill 512 0)
      ([Op.setup].flatMap Op.keys) ([Op.setup].flatMap Op.bauds) []) [.ready true false [] []]
      = (((Main.start (.fill 512 0) (.fill 512 0) (.fill 512 0) ([Op.setup].flatMap Op.keys)
          ([Op.setup].flatMap Op.bauds) []).after_read (keystroke (chr 's')) []).setRs 1).log
        (setup_acts true) := by
    rw [main_loop, run_cons, run_nil, iteration_setup (q := []) [] [] [] rfl rfl rfl]
    rfl
  have hlines : lines (text_sent (.read (keystroke (chr 's')) :: setup_acts true))
      = setup_lines ++ [[chr 's']] := by decide +kernel
  have hdesk : (desk (.read (keystroke (chr 's')) :: setup_acts true)).lines = setup_lines := by
    decide +kernel
  rw [hpass]
  change lines (text_sent (.read (keystroke (chr 's')) :: setup_acts true))
    ≠ (desk (.read (keystroke (chr 's')) :: setup_acts true)).lines
  rw [hlines, hdesk]
  simp

end AutoMag.Client
