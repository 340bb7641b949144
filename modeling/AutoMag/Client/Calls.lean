/-
`Client/Calls.lean` -- the calls of `_input` in a pass.

A `Call` is a call of `_input` seen from the caller: the text that stands in the array
at that moment (what was read into it, or the string just formatted; after `bzero`
none) and the size given. `pass_calls` is the calls of a pass in order, read off the
results it is going to get. Their sizes are those in the trace in every pass
(`iteration_sizes`); the bytes the trace has are the first `size` of the text as long as
the text has that many, which is for `Client/Sizes.lean` to say.
-/
import AutoMag.Client.Keys

set_option autoImplicit false

namespace AutoMag.Client

open AutoMag.CMemory AutoMag.Libtelnet AutoMag.Machine

/-! ## Calls -/

/-- `_input(b, size)`, with `text` what `b` holds to be sent. -/
structure Call where
  text : List UInt8
  size : ℤ
deriving DecidableEq

/-- A call that fits, as the trace has it: the bytes the loop runs over, and the
size. -/
def Call.made (c : Call) : List UInt8 × ℤ := (c.text.take c.size.toNat, c.size)

/-- The calls of `_input` in a trace. -/
def called (tr : List Act) : List (List UInt8 × ℤ) :=
  tr.flatMap fun | .input _ text size => [(text, size)] | _ => []

/-- The sizes given. -/
def sizes (tr : List Act) : List ℤ := (called tr).map Prod.snd

@[simp] theorem called_append (as bs : List Act) : called (as ++ bs) = called as ++ called bs :=
  List.flatMap_append ..

theorem sizes_append (as bs : List Act) : sizes (as ++ bs) = sizes as ++ sizes bs := by
  rw [sizes, called_append, List.map_append, sizes, sizes]

/-- Calls that are the ones in the trace have their sizes. -/
theorem sizes_of_called {tr tr' : List Act} (calls : List Call)
    (h : called tr' = called tr ++ calls.map Call.made) :
    sizes tr' = sizes tr ++ calls.map Call.size := by
  rw [sizes, h, List.map_append, List.map_map]
  rfl

/-- Acts without a call. -/
theorem called_none (tr : List Act) {acts : List Act} (h : called acts = []) :
    called (tr ++ acts) = called tr := by
  rw [called_append, h, List.append_nil]

theorem called_input (who : Origin) (e : Bool) (text : List UInt8) :
    called (input_acts who e text) = [(text, (text.length : ℤ))] :=
  view_call (fun _ => rfl) (fun _ => rfl) (fun _ => rfl) text

theorem called_prompts (texts : List String) :
    called (texts.map fun text => .printf (ascii text)) = [] := by
  apply view_eq_nil
  intro a ha
  obtain ⟨text, _, rfl⟩ := List.mem_map.mp ha
  rfl

/-- A formatted string and its `strlen`. -/
def formatted (text : List UInt8) : Call := ⟨text, strlen (text ++ [0])⟩

theorem formatted_size {text : List UInt8} (h : ∀ b ∈ text, b ≠ 0) :
    (formatted text).size = text.length := by
  rw [formatted, strlen_append_nul text [] h]

theorem formatted_made {text : List UInt8} (h : ∀ b ∈ text, b ≠ 0) :
    (formatted text).made = (text, (text.length : ℤ)) := by
  rw [Call.made, formatted_size h, Int.toNat_natCast]
  exact congrArg (·, _) (List.take_length ..)

/-! ## The calls of a pass -/

/-- After the menu: once or twice the first byte of what was read, and in the
CAN setup its seven commands before it. -/
def key_calls (c : Chunk) : List Call :=
  if c.key = 0 then [⟨c.bytes, 1⟩, ⟨c.bytes, 1⟩]
  else if c.key = chr 's' then (setup_texts.map fun t => formatted (ascii t)) ++ [⟨c.bytes, 1⟩]
  else [⟨c.bytes, 1⟩, ⟨c.bytes, 1⟩]

/-- What `buffer` holds when the submenu's `read` has returned: a `read` that
brought nothing leaves the `l` that opened the submenu, with what came with
it. -/
def held (c : Chunk) : Result → List UInt8
  | .data d => d.bytes
  | _ => c.bytes

/-- In the submenu, with `text` in `buffer` and `rs` from its `read`: the
command if there is one, and then `_input(buffer, rs)` with whatever `buffer`
holds by now. -/
def lin_calls (br : Int32) (scanfs : List (Option Int32)) (text : List UInt8) (rs : ℤ) :
    List Call :=
  match LinMode.of_key (text.headD 0), scanfs with
  | some _, [] => []
  | some m, v :: _ =>
      [formatted (m.line (v.getD br).toInt ++ ascii "\r\n"),
        ⟨m.line (v.getD br).toInt ++ ascii "\r\n", rs⟩]
  | none, _ =>
      if text.headD 0 = chr '6' then [⟨ascii "LIN CLOSE\r\n", 10⟩, ⟨[], rs⟩]
      else [⟨text, rs⟩]

/-- The stdin branch. -/
def stdin_calls (br : Int32) (scanfs : List (Option Int32)) : List Result → List Call
  | .data c :: q =>
      if c.key = chr 'q' then []
      else if c.key = chr 'l' then
        (q.take 1).flatMap fun r => lin_calls br scanfs (held c r) r.count
      else key_calls c
  | _ => []

/-- The LED commands for a message, by the flags before it. -/
def led_calls (m : List UInt8) (green red : ℕ) : List Call :=
  if id_matches m then
    if (reading m).speed ≤ 60 ∧ green ≠ 1 then
      [formatted (ascii "\r\n GPLED LED1 SET\n"), formatted (ascii "GPLED LED2 CLEAR\n")]
    else if 60 < (reading m).speed ∧ red ≠ 1 then
      [formatted (ascii "GPLED LED2 SET\n"), formatted (ascii "GPLED LED1 CLEAR\n")]
    else []
  else []

/-- The socket branch. -/
def socket_calls (s : Main) (past : List UInt8) : List Call :=
  match s.socket with
  | .data c :: .data d :: .data e :: _ =>
      match strstr checkMsg ((s.recieveBuffer.write 0 c.bytes).bytes ++ past) with
      | some ret => led_calls (s.glued past c d e ret) s.greenLedState s.redLedState
      | none => []
  | _ => []

/-- The calls of a pass. -/
def pass_calls (s : Main) : Poll → List Call
  | .failed => []
  | .ready stdin sock pastBuffer past =>
      if s.session.status = .running then
        (if stdin ∧ s.stdin ≠ [] then stdin_calls s.br s.scanfs s.stdin else [])
          ++ (if s.comes_to_socket (.ready stdin sock pastBuffer past) then socket_calls s past
            else [])
      else []

section StdinCalls

variable {br : Int32} {scanfs : List (Option Int32)} {c : Chunk} {q : List Result}

theorem stdin_calls_quit (hkey : c.key = chr 'q') : stdin_calls br scanfs (.data c :: q) = [] :=
  if_pos hkey

theorem stdin_calls_wait (hkey : c.key = chr 'l') : stdin_calls br scanfs [.data c] = [] :=
  (if_neg (by rw [hkey]; decide)).trans (if_pos hkey)

theorem stdin_calls_lin (hkey : c.key = chr 'l') (r : Result) :
    stdin_calls br scanfs (.data c :: r :: q) = lin_calls br scanfs (held c r) r.count := by
  have hone : stdin_calls br scanfs (.data c :: r :: q)
      = ((r :: q).take 1).flatMap fun r => lin_calls br scanfs (held c r) r.count :=
    (if_neg (by rw [hkey]; decide)).trans (if_pos hkey)
  rw [hone, List.take_succ_cons, List.take_zero, List.flatMap_singleton]

theorem stdin_calls_key (hl : c.key ≠ chr 'l') (hquit : c.key ≠ chr 'q') :
    stdin_calls br scanfs (.data c :: q) = key_calls c :=
  (if_neg hquit).trans (if_neg hl)

end StdinCalls

theorem Chunk.headD_bytes (c : Chunk) : c.bytes.headD 0 = c.key := by
  rw [c.bytes_eq]
  rfl

section LinCalls

variable {br : Int32} {scanfs : List (Option Int32)} {text : List UInt8} {rs : ℤ}

theorem lin_calls_wait {m : LinMode} (hm : LinMode.of_key (text.headD 0) = some m) :
    lin_calls br [] text rs = [] := by
  unfold lin_calls
  rw [hm]

theorem lin_calls_opened {m : LinMode} {v : Option Int32} {rest : List (Option Int32)}
    (hm : LinMode.of_key (text.headD 0) = some m) :
    lin_calls br (v :: rest) text rs
      = [formatted (m.line (v.getD br).toInt ++ ascii "\r\n"),
        ⟨m.line (v.getD br).toInt ++ ascii "\r\n", rs⟩] := by
  unfold lin_calls
  rw [hm]

theorem lin_calls_close (hkey : text.headD 0 = chr '6') :
    lin_calls br scanfs text rs = [⟨ascii "LIN CLOSE\r\n", 10⟩, ⟨[], rs⟩] := by
  have hm : LinMode.of_key (text.headD 0) = none := by
    rw [hkey]
    decide
  unfold lin_calls
  rw [hm]
  exact if_pos hkey

theorem lin_calls_other (hm : LinMode.of_key (text.headD 0) = none)
    (hkey : text.headD 0 ≠ chr '6') :
    lin_calls br scanfs text rs = [⟨text, rs⟩] := by
  unfold lin_calls
  rw [hm]
  exact if_neg hkey

end LinCalls

/-! ## The calls are those of the trace -/

theorem take_one_made (c : Chunk) : (⟨c.bytes, 1⟩ : Call).made = ([c.key], 1) := by
  have htake : c.bytes.take 1 = [c.key] := by
    rw [c.bytes_eq]
    rfl
  exact congrArg (·, _) htake

/-- `_input(b, n)` where `b` holds at least `n` bytes of `text`: the trace has
the first `n` of them. -/
theorem called_take (who : Origin) (e : Bool) {n : ℕ} {text : List UInt8} {size : ℤ}
    (hn : size = n) (hlen : n ≤ text.length) :
    called (input_acts who e (text.take n)) = [(⟨text, size⟩ : Call).made] := by
  rw [called_input, List.length_take, Nat.min_eq_left hlen, Call.made, hn, Int.toNat_natCast]

theorem called_texts (who : Origin) (e : Bool) (texts : List String) (h : ∀ t ∈ texts, Plain t) :
    called (texts.flatMap fun t => input_acts who e (ascii t))
      = (texts.map fun t => formatted (ascii t)).map Call.made := by
  induction texts with
  | nil => rfl
  | cons t texts ih =>
      rw [List.flatMap_cons, called_append, called_input, List.map_cons, List.map_cons,
        formatted_made (h t (List.mem_cons_self ..)),
        ih fun t' ht => h t' (List.mem_cons_of_mem _ ht)]
      rfl

theorem called_key (e : Bool) (c : Chunk) :
    called (key_acts e c.key) = (key_calls c).map Call.made := by
  have hmenu : called menu_prompts = [] := called_prompts _
  have hone := called_input .stdin e [c.key]
  unfold key_acts key_calls
  split
  · rw [called_append, hone, List.map_cons, List.map_cons, take_one_made]
    rfl
  split
  · next hkey =>
      rw [hkey] at hone
      rw [setup_acts, called_append, called_append, hmenu, called_texts _ _ _ setup_texts_plain,
        hone, List.map_append, List.map_singleton, take_one_made, hkey]
      rfl
  · rw [text_acts, called_append, called_append, called_append, hmenu, hone, List.map_cons,
      List.map_cons, take_one_made]
    rfl

/-- The `switch` of the submenu looks at what `buffer` holds, which is what was
read, or the `l` still. -/
theorem at_submenu_held (s : Main) (c : Chunk) (r : Result) (q : List Result) :
    (s.at_submenu c r q).buffer.bytes.headD 0 = (held c r).headD 0 := by
  cases r with
  | data d => exact (at_submenu_key s c d q).trans d.headD_bytes.symm
  | _ =>
      have hhead : (s.buffer.write 0 c.bytes).bytes.headD 0 = c.key := after_read_headD s c q
      rw [at_submenu_bytes, CArray.write_zero_bytes _ _ (by simp [Result.bytes])]
      exact hhead.trans c.headD_bytes.symm

/-- Opening the submenu calls nothing. -/
theorem at_submenu_called (s : Main) (c : Chunk) (r : Result) (q : List Result) :
    called (s.at_submenu c r q).session.trace = called s.session.trace := by
  have hmenu : called menu_prompts = [] := called_prompts _
  have hlin : called lin_prompts = [] := called_prompts _
  rw [Main.at_submenu_session, Session.log_trace, called_append, called_append,
    ← List.singleton_append, called_append, called_append, hmenu, hlin]
  exact List.append_nil _

/-- The first `rs` bytes of `buffer` are what was read, all of it, or nothing of
what was there. -/
theorem held_take (s : Main) (c : Chunk) (q : List Result) {r : Result} {n : ℕ}
    (hn : r.count = n) :
    n ≤ (held c r).length ∧ (s.at_submenu c r q).buffer.bytes.take n = (held c r).take n := by
  cases r with
  | data d =>
      have hlen : n = d.bytes.length := Int.ofNat_inj.mp hn.symm
      have hbytes : (s.at_submenu c (.data d) q).buffer.bytes
          = d.bytes ++ (s.buffer.write 0 c.bytes).bytes.drop d.bytes.length :=
        CArray.write_zero_bytes _ _ d.le
      refine ⟨Nat.le_of_eq hlen, ?_⟩
      rw [hbytes, List.take_append_of_le_length (Nat.le_of_eq hlen)]
      rfl
  | eof =>
      have hzero : n = 0 := Int.ofNat_inj.mp hn.symm
      rw [hzero]
      exact ⟨Nat.zero_le _, rfl⟩
  | error errno =>
      have hneg : (-1 : ℤ) = n := hn
      omega

/-- The trailing `_input(buffer, rs)`, where `buffer` begins with at least `rs`
bytes of `text`. -/
theorem finish_called {term : List UInt8} {s : Main} {text : List UInt8} {size : ℤ} {n : ℕ}
    (hs : s.session.status = .running) (hrs : s.rs = n) (hn : size = n) (hle : n ≤ 512)
    (hlen : n ≤ text.length) (htake : s.buffer.bytes.take n = text.take n) :
    called (s.finish term).session.trace
        = called s.session.trace ++ [(⟨text, size⟩ : Call).made]
      ∧ (s.finish term).session.status ≠ .overrun := by
  rw [finish_count hs hrs hle, htake, Main.log_session, Session.log_trace, called_append,
    called_take .stdin s.session.do_echo hn hlen, Session.log_status, hs]
  exact ⟨rfl, by decide⟩

/-- The trailing `_input(buffer, rs)` is given what the submenu's `read`
returned, -1 included. -/
theorem finish_sizes {term : List UInt8} {s : Main} {r : Result} (hs : s.session.status = .running)
    (hrs : s.rs = r.count) :
    sizes (s.finish term).session.trace = sizes s.session.trace ++ [r.count] := by
  have hcount : ∀ n : ℕ, r.count = n → n ≤ 512 →
      sizes (s.finish term).session.trace = sizes s.session.trace ++ [r.count] := by
    intro n hn hle
    have hlen : n ≤ s.buffer.bytes.length := by
      rw [s.buffer.size]
      exact hle
    exact sizes_of_called [⟨s.buffer.bytes, r.count⟩]
      (finish_called hs (hrs.trans hn) hn hle hlen rfl).1
  cases r with
  | data d => exact hcount _ rfl d.le
  | eof => exact hcount 0 rfl (Nat.zero_le _)
  | error errno =>
      have hone : sizes (.input .stdin s.buffer.bytes (-1)
          :: s.buffer.bytes.flatMap (char_acts .stdin s.session.do_echo)) = [-1] := by
        have hchars : called (s.buffer.bytes.flatMap (char_acts .stdin s.session.do_echo))
            = [] := by
          apply view_eq_nil
          intro a ha
          rcases mem_chars_acts ha with ⟨_, rfl⟩ | ⟨_, rfl⟩ | ⟨_, rfl⟩ <;> rfl
        rw [sizes, ← List.singleton_append, called_append, hchars]
        rfl
      rw [finish_error hs hrs]
      exact (sizes_append _ _).trans (congrArg (_ ++ ·) hone)

/-- The sizes of the submenu, whatever its result. Texts may run over the end of
the array; sizes are known all the same. -/
theorem submenu_sizes (term : List UInt8) (s : Main) (c : Chunk) (r : Result) (q : List Result)
    (hs : s.session.status = .running) :
    sizes ((lin_choice term (s.at_submenu c r q)).finish term).session.trace
      = sizes s.session.trace
        ++ (lin_calls s.br s.scanfs (held c r) r.count).map Call.size := by
  have hat := Main.at_submenu_running hs c r q
  have hheld := at_submenu_held s c r q
  have hbefore : sizes (s.at_submenu c r q).session.trace = sizes s.session.trace :=
    congrArg (·.map Prod.snd) (at_submenu_called s c r q)
  have hcase := lin_choice_case term (s.at_submenu c r q) hat
  have hrs : (lin_choice term (s.at_submenu c r q)).rs = r.count := hcase.frame.1
  rw [← hbefore]
  generalize lin_choice term (s.at_submenu c r q) = s' at hcase hrs
  cases hcase with
  | @wait m hmode hv =>
      have hm : LinMode.of_key ((held c r).headD 0) = some m := by
        rw [← hheld, hmode, LinMode.of_key_key]
      have hv : s.scanfs = [] := hv
      rw [finish_stopped (by simp [Main.halt]), hv, lin_calls_wait hm]
      exact sizes_append _ _
  | @opened m v rest hmode hv =>
      have hm : LinMode.of_key ((held c r).headD 0) = some m := by
        rw [← hheld, hmode, LinMode.of_key_key]
      have hscan : s.scanfs = v :: rest := hv
      have hcommand : sizes (.printf (ascii "Please enter boudrate:") :: .scanf (v.map Int32.toInt)
          :: input_acts .stdin (s.at_submenu c r q).session.do_echo
            (m.line (v.getD s.br).toInt ++ ascii "\r\n"))
          = [(formatted (m.line (v.getD s.br).toInt ++ ascii "\r\n")).size] := by
        rw [formatted_size (line_ne_zero m _)]
        exact congrArg (·.map Prod.snd) (called_input _ _ _)
      rw [finish_sizes (by exact hat) hrs, hscan, lin_calls_opened hm, Main.log_session,
        Session.log_trace, sizes_append]
      exact (List.append_assoc ..).trans (congrArg (_ ++ ·) (congrArg (· ++ _) hcommand))
  | close hclose =>
      have hcommand : sizes (input_acts .stdin (s.at_submenu c r q).session.do_echo
          (ascii "LIN CLOSE\r")) = [10] :=
        congrArg (·.map Prod.snd) (called_input _ _ _)
      rw [finish_sizes (by exact hat) hrs, lin_calls_close (hheld.symm.trans hclose)]
      change sizes ((s.at_submenu c r q).session.trace ++ _) ++ _ = _
      rw [sizes_append, hcommand, List.append_assoc]
      rfl
  | other hmode hclose =>
      rw [hheld] at hmode hclose
      rw [finish_sizes (by exact hat) hrs, lin_calls_other hmode hclose, Main.log_session,
        Session.log_trace, sizes_append, List.append_assoc]
      rfl

/-- The stdin branch: the submenu, or calls that always fit. -/
theorem StdinCase.called {term : List UInt8} {s s₁ : Main} (h : StdinCase term s s₁)
    (hs : s.session.status = .running) :
    (∃ c r q, s.stdin = .data c :: r :: q ∧ c.key = chr 'l'
        ∧ s₁ = (lin_choice term (s.at_submenu c r q)).finish term)
      ∨ (Client.called s₁.session.trace
          = Client.called s.session.trace ++ (stdin_calls s.br s.scanfs s.stdin).map Call.made
        ∧ s₁.session.status ≠ .overrun) := by
  have hmenu : Client.called menu_prompts = [] := called_prompts _
  have hlin : Client.called lin_prompts = [] := called_prompts _
  cases h with
  | @ended r q hq hr =>
      have hcalls : stdin_calls s.br s.scanfs s.stdin = [] := by
        rw [hq]
        cases r with
        | data c => exact absurd rfl (hr c)
        | eof => rfl
        | error errno => rfl
      rw [hcalls, List.map_nil, List.append_nil]
      refine Or.inr ⟨?_, by simp [Main.leave, Main.halt]⟩
      change Client.called ((s.session.trace ++ [.read r]) ++ [.telnet_free, .close]) = _
      rw [called_none _ rfl, called_none _ rfl]
  | @key c q hq hl hquit =>
      rw [hq, stdin_calls_key hl hquit, ← called_key s.session.do_echo c]
      refine Or.inr ⟨?_, ?_⟩
      · change Client.called ((s.session.trace ++ [.read (.data c)])
          ++ key_acts s.session.do_echo c.key) = _
        rw [called_append, called_none _ rfl]
      · intro h
        exact Status.noConfusion (hs.symm.trans h)
  | @quit c q hq hkey =>
      rw [hq, stdin_calls_quit hkey, List.map_nil, List.append_nil]
      refine Or.inr ⟨?_, by simp [Main.halt]⟩
      change Client.called ((s.session.trace ++ [.read (.data c)]) ++ menu_prompts) = _
      rw [called_none _ hmenu, called_none _ rfl]
  | @wait c hq hkey =>
      rw [hq, stdin_calls_wait hkey, List.map_nil, List.append_nil]
      refine Or.inr ⟨?_, by simp [Main.halt]⟩
      change Client.called ((s.session.trace ++ [.read (.data c)])
        ++ (menu_prompts ++ lin_prompts)) = _
      rw [← List.append_assoc, called_none _ hlin, called_none _ hmenu, called_none _ rfl]
  | @submenu c r q hq hkey => exact Or.inl ⟨c, r, q, hq, hkey, rfl⟩

/-- Its sizes, whatever its results. -/
theorem stdin_branch_sizes (term past : List UInt8) (s : Main) (hs : s.session.status = .running)
    (hne : s.stdin ≠ []) :
    sizes (stdin_branch term past s).session.trace
      = sizes s.session.trace ++ (stdin_calls s.br s.scanfs s.stdin).map Call.size := by
  rcases (stdin_branch_case term past s hs hne).called hs with ⟨c, r, q, hq, hkey, heq⟩ | hcalled
  · rw [heq, hq, stdin_calls_lin hkey r]
    exact submenu_sizes term s c r q hs
  · exact sizes_of_called _ hcalled.1

/-- Showing a message calls `_input` for the LEDs only, with commands formatted
into `buffer`. -/
theorem show_message_called (term : List UInt8) (s : Main) (hs : s.session.status = .running) :
    called (show_message term s).session.trace
      = called s.session.trace
        ++ (led_calls s.dataBuffer.bytes s.greenLedState s.redLedState).map Call.made := by
  have hpair : ∀ a b, Plain a → Plain b →
      called ((s.log [.lcdScreen (reading s.dataBuffer.bytes)]).pair term a b).session.trace
        = called s.session.trace ++ [formatted (ascii a), formatted (ascii b)].map Call.made := by
    intro a b ha hb
    have hplain : ∀ t ∈ [a, b], Plain t := by
      simp only [List.mem_cons, List.not_mem_nil, or_false, forall_eq_or_imp, forall_eq]
      exact ⟨ha, hb⟩
    rw [Main.pair_spec term (s.log _) a b hs ha hb]
    change called ((s.session.trace ++ [.lcdScreen _]) ++ _) = _
    rw [called_append, called_append, called_texts _ _ _ hplain]
    exact congrArg (· ++ _) (List.append_nil _)
  unfold show_message led_calls
  by_cases hid : id_matches s.dataBuffer.bytes
  · rw [if_pos hid, if_pos hid, drive_leds]
    -- noting the call of `lcdScreen` does not touch the flags
    by_cases hgreen : (reading s.dataBuffer.bytes).speed ≤ 60 ∧ s.greenLedState ≠ 1
    · rw [if_pos hgreen, if_pos (by exact hgreen), Main.setLeds_session]
      exact hpair _ _ green_plain.1 green_plain.2
    by_cases hred : 60 < (reading s.dataBuffer.bytes).speed ∧ s.redLedState ≠ 1
    · rw [if_neg hgreen, if_pos hred, if_neg (by exact hgreen), if_pos (by exact hred),
        Main.setLeds_session]
      exact hpair _ _ red_plain.1 red_plain.2
    · rw [if_neg hgreen, if_neg hred, if_neg (by exact hgreen), if_neg (by exact hred),
        Main.log_session, Session.log_trace, called_none _ rfl, List.map_nil, List.append_nil]
  · rw [if_neg hid, if_neg hid, List.map_nil, List.append_nil]

theorem led_calls_take (d : List UInt8) (green red : ℕ) :
    led_calls (d.take 24) green red = led_calls d green red := by
  unfold led_calls
  simp only [id_matches_take, reading_take]

theorem called_after_recv (s : Main) (r : Result) (q : List Result) :
    called (s.after_recv r q).session.trace = called s.session.trace := called_none _ rfl

/-- The replies to the first result call nothing. -/
theorem Main.first_called (term : List UInt8) (s : Main) (c : Chunk) (q : List Result)
    (hs : s.session.status = .running) :
    called (s.first term c q).session.trace = called s.session.trace := by
  have hreply : called (recv_acts term s.session.telnet c.bytes) = [] := by
    refine view_blind ?_ (recv_acts_ofReply term s.session.telnet c.bytes)
    intro a ha
    cases a <;> first | rfl | cases ha
  rw [s.first_trace term c q hs]
  exact called_none _ hreply

/-- Without three results that are data there is no message, and no call. -/
theorem socket_calls_short {s : Main} (past : List UInt8)
    (h : ∀ c d e q, s.socket ≠ .data c :: .data d :: .data e :: q) : socket_calls s past = [] := by
  unfold socket_calls
  split
  · next heq => exact absurd heq (h _ _ _ _)
  · rfl

/-- Without the marker neither. -/
theorem socket_calls_plain {s : Main} {past : List UInt8} {c : Chunk} {q : List Result}
    (hq : s.socket = .data c :: q)
    (hret : strstr checkMsg ((s.recieveBuffer.write 0 c.bytes).bytes ++ past) = none) :
    socket_calls s past = [] := by
  unfold socket_calls
  split
  · next heq =>
      rw [hq] at heq
      cases heq
      rw [hret]
  · rfl

theorem socket_calls_message {s : Main} {past : List UInt8} {c d e : Chunk} {q : List Result}
    {ret : ℕ} (hq : s.socket = .data c :: .data d :: .data e :: q)
    (hret : strstr checkMsg ((s.recieveBuffer.write 0 c.bytes).bytes ++ past) = some ret) :
    socket_calls s past
      = led_calls (s.glued past c d e ret) s.greenLedState s.redLedState := by
  unfold socket_calls
  rw [hq]
  simp only
  rw [hret]

/-- The branch from a first result that is data, by its outcomes. -/
theorem SocketStep.called {term past : List UInt8} {s s' : Main} (h : SocketStep term past s s')
    (hs : s.session.status = .running) {c : Chunk} {q : List Result}
    (hq : s.socket = .data c :: q) :
    Client.called s'.session.trace
        = Client.called s.session.trace ++ (socket_calls s past).map Call.made
      ∧ s'.session.status ≠ .overrun := by
  have hfirst := fun c q => s.first_called term c q hs
  have hrun : ∀ c q, (s.first term c q).session.status ≠ .overrun := by
    intro c q
    have hstatus : (s.first term c q).session.status = .running := client_recv_status term _ _ hs
    rw [hstatus]
    decide
  cases h with
  | @closed r q' acts status hq' hr =>
      rw [hq'] at hq
      cases hq
      exact absurd hr c.nonempty
  | @plain _ q' hq' hret =>
      rw [socket_calls_plain hq' hret, List.map_nil, List.append_nil]
      exact ⟨hfirst _ _, hrun _ _⟩
  | wait_second hq' =>
      rw [socket_calls_short past (by simp [hq']), List.map_nil, List.append_nil]
      exact ⟨hfirst _ [], by simp [Main.halt]⟩
  | @no_second _ r q' ret hq' hr hret =>
      have hshort : ∀ c d e q, s.socket ≠ .data c :: .data d :: .data e :: q := by
        intro c d e q h
        rw [hq'] at h
        cases h
        exact d.nonempty hr
      rw [socket_calls_short past hshort, List.map_nil, List.append_nil]
      exact ⟨(called_after_recv _ r q').trans (hfirst _ (r :: q')), hrun _ (r :: q')⟩
  | @wait_third _ d ret hq' =>
      rw [socket_calls_short past (by simp [hq']), List.map_nil, List.append_nil]
      exact ⟨(called_after_recv _ (.data d) []).trans (hfirst _ [.data d]), by simp [Main.halt]⟩
  | @no_third _ d r q' ret hq' hr hret =>
      have hshort : ∀ c d e q, s.socket ≠ .data c :: .data d :: .data e :: q := by
        intro c d e q h
        rw [hq'] at h
        cases h
        exact e.nonempty hr
      rw [socket_calls_short past hshort, List.map_nil, List.append_nil]
      refine ⟨?_, hrun _ (.data d :: r :: q')⟩
      exact ((called_after_recv _ r q').trans (called_after_recv _ (.data d) (r :: q'))).trans
        (hfirst _ (.data d :: r :: q'))
  | @message c d e q' ret hq' hret =>
      have hcomplete : (s.complete term past c d e q' ret).session.status = .running :=
        client_recv_status term _ _ hs
      have hbefore : Client.called (s.complete term past c d e q' ret).session.trace
          = Client.called s.session.trace :=
        ((called_after_recv _ (.data e) q').trans
          (called_after_recv _ (.data d) (.data e :: q'))).trans
          (hfirst c (.data d :: .data e :: q'))
      rw [show_message_called term _ hcomplete, hbefore, socket_calls_message hq' hret,
        (show_message_frame term _ hcomplete).status, hcomplete,
        ← message_data term past s c d e q' ret, led_calls_take]
      exact ⟨rfl, by decide⟩

/-- The socket branch. -/
theorem socket_branch_called (term past : List UInt8) (s : Main)
    (hs : s.session.status = .running) (hne : s.socket ≠ []) :
    called (socket_branch term past s).session.trace
        = called s.session.trace ++ (socket_calls s past).map Call.made
      ∧ (socket_branch term past s).session.status ≠ .overrun := by
  obtain ⟨r, q, hq⟩ := List.exists_cons_of_ne_nil hne
  cases r with
  | eof =>
      rw [socket_branch_eof term past hq, socket_calls_short past (by simp [hq]), List.map_nil,
        List.append_nil]
      refine ⟨?_, by simp [Main.leave, Main.halt]⟩
      change called ((s.session.trace ++ [.recv .eof]) ++ [.telnet_free, .close]) = _
      rw [called_none _ rfl, called_none _ rfl]
  | error errno =>
      rw [socket_branch_error term past hq, socket_calls_short past (by simp [hq]), List.map_nil,
        List.append_nil]
      refine ⟨?_, by simp [Main.fail, Main.halt]⟩
      change called ((s.session.trace ++ [.recv (.error errno)]) ++ [.fprintf _]) = _
      rw [called_none _ rfl, called_none _ rfl]
  | data c => exact (socket_branch_step term past s hs hne).called hs hq

/-! ## A pass -/

theorem pass_calls_ready {s : Main} (hs : s.session.status = .running) (stdin sock : Bool)
    (pastBuffer past : List UInt8) :
    pass_calls s (.ready stdin sock pastBuffer past)
      = (if stdin ∧ s.stdin ≠ [] then stdin_calls s.br s.scanfs s.stdin else [])
        ++ (if s.comes_to_socket (.ready stdin sock pastBuffer past) then socket_calls s past
          else []) := if_pos hs

theorem pass_calls_stopped {s : Main} (hs : s.session.status ≠ .running) (p : Poll) :
    pass_calls s p = [] := by
  cases p with
  | failed => rfl
  | ready => exact if_neg hs

/-- A pass, for any view of the calls that the two branches agree on. It is used
for the sizes, which are always known, and for the texts, which are known when
the results fit. -/
theorem iteration_calls {β : Type*} (view : List Act → List β) (f : Call → β) (term : List UInt8)
    {s : Main} (hs : s.session.status = .running) (stdin sock : Bool) (pastBuffer past : List UInt8)
    (hstdin : stdin → s.stdin ≠ [] → view (stdin_branch term pastBuffer s).session.trace
      = view s.session.trace ++ (stdin_calls s.br s.scanfs s.stdin).map f)
    (hsocket : ∀ s₁ : Main, s₁.session.status = .running → s₁.socket ≠ [] →
      view (socket_branch term past s₁).session.trace
        = view s₁.session.trace ++ (socket_calls s₁ past).map f) :
    view (iteration term s (.ready stdin sock pastBuffer past)).session.trace
      = view s.session.trace ++ (pass_calls s (.ready stdin sock pastBuffer past)).map f := by
  have hframe := s.at_socket_frame term pastBuffer stdin hs
  have hcomes := comes_to_socket_iff term pastBuffer past stdin sock s hs
  have hbefore : view (s.at_socket term pastBuffer stdin).session.trace = view s.session.trace
      ++ (if stdin ∧ s.stdin ≠ [] then stdin_calls s.br s.scanfs s.stdin else []).map f := by
    unfold Main.at_socket
    split
    · next h => exact hstdin h.1 h.2
    · exact (List.append_nil _).symm
  have hsame : socket_calls (s.at_socket term pastBuffer stdin) past = socket_calls s past := by
    simp only [socket_calls, Main.glued, hframe.socket, hframe.recieveBuffer,
      hframe.greenLedState, hframe.redLedState]
  rw [pass_calls_ready hs, List.map_append, ← List.append_assoc, ← hbefore,
    iteration_ready term pastBuffer past stdin sock s hs]
  by_cases hsock : s.comes_to_socket (.ready stdin sock pastBuffer past)
  · have hat := hcomes.mpr hsock
    rw [if_pos hat, if_pos hsock, ← hsame]
    exact hsocket _ hat.1 hat.2.2
  · rw [if_neg fun h => hsock (hcomes.mp h), if_neg hsock]
    exact (List.append_nil _).symm

/-- **The sizes of a pass** are those of its calls, whatever its results. -/
theorem iteration_sizes (term : List UInt8) (s : Main) (p : Poll) :
    sizes (iteration term s p).session.trace
      = sizes s.session.trace ++ (pass_calls s p).map Call.size := by
  by_cases hrun : s.session.status = .running
  · cases p with
    | failed =>
        rw [iteration_failed term hrun]
        exact sizes_append _ _
    | ready stdin sock pastBuffer past =>
        apply iteration_calls sizes Call.size term hrun stdin sock pastBuffer past
        · intro _ hne
          exact stdin_branch_sizes term pastBuffer s hrun hne
        · intro s₁ hs₁ hne
          exact sizes_of_called _ (socket_branch_called term past s₁ hs₁ hne).1
  · rw [iteration_stopped term s p hrun, pass_calls_stopped hrun]
    exact (List.append_nil _).symm

end AutoMag.Client
