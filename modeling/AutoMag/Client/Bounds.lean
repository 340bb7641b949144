/-
`Client/Bounds.lean` -- the bytes the message parser looks at.

The arrays of `main` are not initialised, and neither `read` nor `recv` ends what it
writes with a NUL. So beside the program runs a record of what has been written: all
writes to `buffer` and `recieveBuffer` begin at the front, so it is the list of bytes
each array is known to begin with (`Shadow.buffer`, kept by hand, and `arrived`, which
can be read off the trace).

`pass_accesses` is every index `strlen`, `strstr` and the three copies of a pass look
at, each with the number of bytes that count as written there; `Bounded` is the exact
condition under which all of them are inside.
-/
import AutoMag.Client.Keys

set_option autoImplicit false

namespace AutoMag.Client

open AutoMag.CMemory AutoMag.Libtelnet AutoMag.Machine

/-! ## What has been written -/

/-- The bytes `recv` has put into `recieveBuffer`, from its front. -/
def arrived (tr : List Act) : List UInt8 :=
  tr.foldl (fun w a => match a with | .recv r => overlay r.bytes w | _ => w) []

theorem arrived_recv (tr : List Act) (r : Result) :
    arrived (tr ++ [.recv r]) = overlay r.bytes (arrived tr) := by
  rw [arrived, List.foldl_append]
  rfl

/-- Acts that receive nothing leave the record as it is. -/
theorem arrived_append (tr : List Act) {acts : List Act} (h : ∀ a ∈ acts, ∀ r, a ≠ .recv r) :
    arrived (tr ++ acts) = arrived tr := by
  rw [arrived, List.foldl_append]
  change acts.foldl _ (arrived tr) = arrived tr
  induction acts with
  | nil => rfl
  | cons a acts ih =>
      rw [List.foldl_cons]
      cases a with
      | recv r => exact absurd rfl (h _ (List.mem_cons_self ..) r)
      | _ => exact ih fun a ha => h a (List.mem_cons_of_mem _ ha)

/-- What has been written to `buffer` after the `switch` of the submenu. -/
def lin_written (br : Int32) (scanfs : List (Option Int32)) (w : List UInt8) : List UInt8 :=
  match LinMode.of_key (w.headD 0), scanfs with
  | some m, v :: _ => overlay (m.line (v.getD br).toInt ++ ascii "\r\n" ++ [0]) w
  | some _, [] => w
  | none, _ => if w.headD 0 = chr '6' then List.replicate 512 0 else w

/-- The same after the stdin branch. -/
def stdin_written (br : Int32) (scanfs : List (Option Int32)) (w : List UInt8) :
    List Result → List UInt8
  | .data c :: r :: _ =>
      if c.key = chr 'l' then lin_written br scanfs (overlay r.bytes (overlay c.bytes w))
      else overlay c.bytes w
  | .data c :: [] => overlay c.bytes w
  | _ => w

/-- The program, and what has been written to `buffer`. -/
structure Shadow where
  main : Main
  buffer : List UInt8

/-- One pass of the loop, with the record kept. -/
def Shadow.step (term : List UInt8) (x : Shadow) (p : Poll) : Shadow where
  main := iteration term x.main p
  buffer := match p with
    | .failed => x.buffer
    | .ready stdin _ _ _ =>
        if x.main.session.status = .running ∧ stdin then
          stdin_written x.main.br x.main.scanfs x.buffer x.main.stdin
        else x.buffer

/-- The record is right: the arrays begin with it. -/
structure Shadow.Right (x : Shadow) : Prop where
  buffer : x.buffer <+: x.main.buffer.bytes
  recieveBuffer : arrived x.main.session.trace <+: x.main.recieveBuffer.bytes

/-! ## What is looked at -/

/-- A byte looked at, and how many bytes from the front of its array are
written. -/
structure Access where
  index : ℕ
  written : ℕ
deriving DecidableEq

/-- Inside the array, and written. -/
def Access.Inside (a : Access) : Prop := a.index < 512 ∧ a.index < a.written

instance (a : Access) : Decidable a.Inside := inferInstanceAs (Decidable (_ ∧ _))

/-- The bytes from `i` to `j`. -/
def span (i j written : ℕ) : List Access := (List.range' i (j + 1 - i)).map fun k => ⟨k, written⟩

/-- The stdin branch: `strlen(buffer)` after the read of the menu, and
`strlen(buffer)` after the `sprintf` of a LIN command. -/
def stdin_accesses (s : Main) (past w : List UInt8) : List Access :=
  match s.stdin with
  | .data c :: q =>
      span 0 (strlen ((s.buffer.write 0 c.bytes).bytes ++ past)) (overlay c.bytes w).length
        ++ (if c.key = chr 'l' then (q.take 1).flatMap fun r =>
            match LinMode.of_key ((s.at_submenu c r q.tail).buffer.bytes.headD 0), s.scanfs with
            | some m, v :: rest =>
                span 0 (strlen ((s.at_submenu c r q.tail).opened m (v.getD s.br) rest).buffer.bytes)
                  (lin_written s.br s.scanfs (overlay r.bytes (overlay c.bytes w))).length
            | _, _ => []
          else [])
  | _ => []

/-- The copies of the second and third part: bytes of the `recv` just made. -/
def part_accesses : List Result → List Access
  | .data d :: .data e :: _ => span 0 7 d.bytes.length ++ span 0 7 e.bytes.length
  | .data d :: _ => span 0 7 d.bytes.length
  | _ => []

/-- The socket branch: the search, the copy of `ret[0..7]`, and the other two
parts. -/
def socket_accesses (s : Main) (past w : List UInt8) : List Access :=
  match s.socket with
  | .data c :: q =>
      span 0 (strstr_last checkMsg ((s.recieveBuffer.write 0 c.bytes).bytes ++ past))
          (overlay c.bytes w).length
        ++ (match strstr checkMsg ((s.recieveBuffer.write 0 c.bytes).bytes ++ past) with
          | some ret => span ret (ret + 7) (overlay c.bytes w).length ++ part_accesses q
          | none => [])
  | _ => []

/-- All of a pass. -/
def pass_accesses (x : Shadow) : Poll → List Access
  | .failed => []
  | .ready stdin sock pastBuffer past =>
      if x.main.session.status = .running then
        (if stdin then stdin_accesses x.main pastBuffer x.buffer else [])
          ++ (if x.main.comes_to_socket (.ready stdin sock pastBuffer past)
            then socket_accesses x.main past (arrived x.main.session.trace) else [])
      else []

/-! ## The condition -/

/-- At the menu: there is a NUL among the bytes written to `buffer`. -/
def text_ends (w : List UInt8) : List Result → Prop
  | .data c :: _ => 0 ∈ overlay c.bytes w
  | _ => True

/-- The second and the third result bring a whole part each. -/
def parts_full : List Result → Prop
  | .data d :: .data e :: _ => 8 ≤ d.bytes.length ∧ 8 ≤ e.bytes.length
  | .data d :: _ => 8 ≤ d.bytes.length
  | _ => True

/-- At the socket: among the bytes received into `recieveBuffer` there is either
the marker with a whole part from it on, and then come whole parts, or no marker
and a NUL. -/
def marker_ends (w : List UInt8) : List Result → Prop
  | .data c :: q =>
      match strstr checkMsg (overlay c.bytes w) with
      | some ret => ret + 8 ≤ (overlay c.bytes w).length ∧ parts_full q
      | none => 0 ∈ overlay c.bytes w
  | _ => True

/-- The results of a pass whose accesses are all inside. -/
def Bounded (x : Shadow) : Poll → Prop
  | .failed => True
  | .ready stdin sock pastBuffer past =>
      x.main.session.status = .running →
        (stdin → text_ends x.buffer x.main.stdin)
          ∧ (x.main.comes_to_socket (.ready stdin sock pastBuffer past) →
            marker_ends (arrived x.main.session.trace) x.main.socket)

/-! ## When the accesses are inside -/

theorem span_inside {i j written : ℕ} (h : i ≤ j) :
    (∀ a ∈ span i j written, a.Inside) ↔ j < 512 ∧ j < written := by
  constructor
  · intro hall
    refine hall ⟨j, written⟩ (List.mem_map.mpr ⟨j, ?_, rfl⟩)
    rw [List.mem_range'_1]
    omega
  · rintro ⟨h1, h2⟩ a ha
    obtain ⟨k, hk, rfl⟩ := List.mem_map.mp ha
    rw [List.mem_range'_1] at hk
    exact ⟨by change k < 512; omega, by change k < written; omega⟩

theorem part_accesses_inside (q : List Result) :
    (∀ a ∈ part_accesses q, a.Inside) ↔ parts_full q := by
  have hseven : ∀ n, (∀ a ∈ span 0 7 n, a.Inside) ↔ 8 ≤ n := by
    intro n
    rw [span_inside (by omega)]
    omega
  unfold part_accesses parts_full
  split
  · simp only [List.mem_append, or_imp, forall_and, hseven]
  · exact hseven _
  · exact iff_of_true nofun trivial

/-- A memory that begins with the bytes written. What follows them, in the array
and behind it, is one stretch of anything. -/
theorem exists_rest {a : CArray 512} {w : List UInt8} (h : w <+: a.bytes) (past : List UInt8) :
    ∃ rest, a.bytes ++ past = w ++ rest ∧ w.length ≤ 512 := by
  obtain ⟨rest, hrest⟩ := h
  refine ⟨rest ++ past, by rw [← hrest, List.append_assoc], ?_⟩
  have hlen := congrArg List.length hrest
  rw [List.length_append, a.size] at hlen
  omega

theorem headD_front {w bytes : List UInt8} (h : w <+: bytes) (hne : w ≠ []) :
    bytes.headD 0 = w.headD 0 := by
  obtain ⟨rest, rfl⟩ := h
  cases w with
  | nil => exact absurd rfl hne
  | cons b w => rfl

theorem overlay_ne_nil (c : Chunk) (w : List UInt8) : overlay c.bytes w ≠ [] := by
  rw [overlay, c.bytes_eq]
  exact List.cons_ne_nil _ _

theorem overlay_result_ne_nil {w : List UInt8} (hw : w ≠ []) (r : Result) :
    overlay r.bytes w ≠ [] := by
  cases r with
  | data d => exact overlay_ne_nil d w
  | _ => exact hw

theorem Result.bytes_le (r : Result) : r.bytes.length ≤ 512 := by
  cases r with
  | data d => exact d.le
  | _ => exact Nat.zero_le _

theorem lin_written_opened {br : Int32} {w : List UInt8} {m : LinMode} {v : Option Int32}
    {rest : List (Option Int32)} (hm : LinMode.of_key (w.headD 0) = some m) :
    lin_written br (v :: rest) w = overlay (m.line (v.getD br).toInt ++ ascii "\r\n" ++ [0]) w := by
  unfold lin_written
  rw [hm]

/-- A formatted command ends with a NUL of its own, so `strlen` stays in it. -/
theorem lin_span_inside (s : Main) (c : Chunk) (r : Result) (q : List Result) {w : List UInt8}
    (hw : w <+: s.buffer.bytes) {m : LinMode} {v : Option Int32} {rest : List (Option Int32)}
    (hm : LinMode.of_key ((s.at_submenu c r q).buffer.bytes.headD 0) = some m) :
    ∀ a ∈ span 0 (strlen ((s.at_submenu c r q).opened m (v.getD s.br) rest).buffer.bytes)
      (lin_written s.br (v :: rest) (overlay r.bytes (overlay c.bytes w))).length, a.Inside := by
  have hpre : overlay r.bytes (overlay c.bytes w) <+: (s.at_submenu c r q).buffer.bytes :=
    CArray.overlay_prefix _ _ (CArray.overlay_prefix _ _ hw c.le) r.bytes_le
  rw [headD_front hpre (overlay_result_ne_nil (overlay_ne_nil c w) r)] at hm
  have hstrlen : strlen ((s.at_submenu c r q).opened m (v.getD s.br) rest).buffer.bytes
      = (m.line (v.getD s.br).toInt ++ ascii "\r\n").length := by
    rw [opened_bytes]
    exact strlen_append_nul _ _ (line_ne_zero m _)
  have hline := line_length_le m (v.getD s.br)
  rw [span_inside (Nat.zero_le _), hstrlen, lin_written_opened hm]
  refine ⟨by omega, ?_⟩
  simp only [overlay, List.length_append, List.length_singleton]
  omega

/-- The stdin branch: what it looks at is inside exactly when the text read ends
with a NUL among the bytes written so far. The `strlen` behind the `sprintf` is
inside by itself. -/
theorem stdin_accesses_inside (s : Main) (past : List UInt8) {w : List UInt8}
    (hw : w <+: s.buffer.bytes) :
    (∀ a ∈ stdin_accesses s past w, a.Inside) ↔ text_ends w s.stdin := by
  unfold stdin_accesses
  match hq : s.stdin with
  | [] => exact iff_of_true nofun trivial
  | .eof :: _ => exact iff_of_true nofun trivial
  | .error _ :: _ => exact iff_of_true nofun trivial
  | .data c :: q =>
      obtain ⟨rest, hmem, hlen⟩ := exists_rest (CArray.overlay_prefix s.buffer c.bytes hw c.le) past
      have hmenu : (∀ a ∈ span 0 (strlen ((s.buffer.write 0 c.bytes).bytes ++ past))
          (overlay c.bytes w).length, a.Inside) ↔ 0 ∈ overlay c.bytes w := by
        rw [span_inside (Nat.zero_le _), hmem, ← strlen_append_lt_iff _ rest]
        omega
      have hlin : ∀ a ∈ (if c.key = chr 'l' then (q.take 1).flatMap fun r =>
          match LinMode.of_key ((s.at_submenu c r q.tail).buffer.bytes.headD 0), s.scanfs with
          | some m, v :: rest =>
              span 0 (strlen ((s.at_submenu c r q.tail).opened m (v.getD s.br) rest).buffer.bytes)
                (lin_written s.br s.scanfs (overlay r.bytes (overlay c.bytes w))).length
          | _, _ => []
        else []), a.Inside := by
        split
        · intro a ha
          obtain ⟨r, _, ha⟩ := List.mem_flatMap.mp ha
          split at ha
          · next m v rest hm hv =>
              rw [hv] at ha
              exact lin_span_inside s c r q.tail hw hm a ha
          · cases ha
        · nofun
      constructor
      · intro h
        exact hmenu.mp fun a ha => h a (List.mem_append_left _ ha)
      · intro h a ha
        rcases List.mem_append.mp ha with ha | ha
        · exact hmenu.mpr h a ha
        · exact hlin a ha

/-- The socket branch: the search and the copies are inside exactly when the
search ends in the bytes received, and what it finds is followed by whole
parts. -/
theorem socket_accesses_inside (s : Main) (past : List UInt8) {w : List UInt8}
    (hw : w <+: s.recieveBuffer.bytes) :
    (∀ a ∈ socket_accesses s past w, a.Inside) ↔ marker_ends w s.socket := by
  unfold socket_accesses
  match hq : s.socket with
  | [] => exact iff_of_true nofun trivial
  | .eof :: _ => exact iff_of_true nofun trivial
  | .error _ :: _ => exact iff_of_true nofun trivial
  | .data c :: q =>
      obtain ⟨rest, hmem, hlen⟩ :=
        exists_rest (CArray.overlay_prefix s.recieveBuffer c.bytes hw c.le) past
      have hsearch : (∀ a ∈ span 0 (strstr_last checkMsg
          ((s.recieveBuffer.write 0 c.bytes).bytes ++ past)) (overlay c.bytes w).length, a.Inside)
          ↔ strstr checkMsg (overlay c.bytes w) ≠ none ∨ 0 ∈ overlay c.bytes w := by
        rw [span_inside (Nat.zero_le _), hmem,
          ← strstr_last_lt_iff (by decide) (by decide) (overlay c.bytes w) rest]
        omega
      simp only [marker_ends]
      cases hhit : strstr checkMsg (overlay c.bytes w) with
      | some ret =>
          have hfound : strstr checkMsg ((s.recieveBuffer.write 0 c.bytes).bytes ++ past)
              = some ret := by
            rw [hmem]
            exact strstr_append_some hhit (by decide) rest
          have hcopy : (∀ a ∈ span ret (ret + 7) (overlay c.bytes w).length, a.Inside)
              ↔ ret + 8 ≤ (overlay c.bytes w).length := by
            rw [span_inside (by omega)]
            omega
          rw [hfound]
          simp only [List.mem_append, or_imp, forall_and]
          rw [hsearch, hhit, hcopy, part_accesses_inside]
          exact ⟨fun h => h.2, fun h => ⟨Or.inl nofun, h⟩⟩
      | none =>
          simp only [List.mem_append, or_imp, forall_and]
          rw [hsearch, hhit]
          by_cases h0 : 0 ∈ overlay c.bytes w
          · -- the search ends at the NUL, without a hit
            have hnone : strstr checkMsg ((s.recieveBuffer.write 0 c.bytes).bytes ++ past)
                = none := by
              rw [hmem]
              exact strstr_append_none hhit h0 (by decide) rest
            rw [hnone]
            exact iff_of_true ⟨Or.inr h0, nofun⟩ h0
          · exact iff_of_false (fun h => h.1.elim (fun hn => hn rfl) h0) h0

/-! ## The record stays right -/

theorem finish_buffer (term : List UInt8) (s : Main) : (s.finish term).buffer = s.buffer := by
  unfold Main.finish
  split <;> rfl

/-- The `switch` of the submenu: a command is written over the front of
`buffer`, or `buffer` is cleared, or nothing is written. -/
theorem LinCase.written {s s' : Main} (h : LinCase s s') {w : List UInt8}
    (hw : w <+: s.buffer.bytes) (hne : w ≠ []) :
    lin_written s.br s.scanfs w <+: s'.buffer.bytes := by
  have hhead := headD_front hw hne
  cases h with
  | @wait m hmode hv =>
      have hm : LinMode.of_key (w.headD 0) = some m := by
        rw [← hhead, hmode, LinMode.of_key_key]
      have hsame : lin_written s.br s.scanfs w = w := by
        unfold lin_written
        rw [hm, hv]
      rw [hsame]
      exact hw
  | @opened m v rest hmode hv =>
      have hm : LinMode.of_key (w.headD 0) = some m := by
        rw [← hhead, hmode, LinMode.of_key_key]
      have hline := line_length_le m (v.getD s.br)
      rw [hv, lin_written_opened hm]
      apply CArray.overlay_prefix _ _ hw
      rw [List.length_append, List.length_singleton]
      omega
  | close hclose =>
      rw [hhead] at hclose
      have hzero : lin_written s.br s.scanfs w = List.replicate 512 0 := by
        have hm : LinMode.of_key (w.headD 0) = none := by
          rw [hclose]
          decide
        unfold lin_written
        rw [hm]
        exact if_pos hclose
      rw [hzero]
      exact List.prefix_rfl
  | other hmode hclose =>
      rw [hhead] at hmode hclose
      have hsame : lin_written s.br s.scanfs w = w := by
        unfold lin_written
        rw [hmode]
        exact if_neg hclose
      rw [hsame]
      exact hw

/-- The stdin branch, by its cases: the record goes on describing what `buffer`
begins with. -/
theorem stdin_branch_written (term past : List UInt8) (s : Main) (hs : s.session.status = .running)
    (hne : s.stdin ≠ []) {w : List UInt8} (hw : w <+: s.buffer.bytes) :
    stdin_written s.br s.scanfs w s.stdin <+: (stdin_branch term past s).buffer.bytes := by
  have hone : ∀ c : Chunk, overlay c.bytes w <+: (s.buffer.write 0 c.bytes).bytes :=
    fun c => CArray.overlay_prefix _ _ hw c.le
  have hbranch := stdin_branch_case term past s hs hne
  generalize stdin_branch term past s = s₁ at hbranch
  cases hbranch with
  | @ended r q hq hr =>
      rw [hq]
      cases r with
      | data c => exact absurd rfl (hr c)
      | _ => exact s.buffer.overlay_prefix [] hw (Nat.zero_le 512)
  | @key c q hq hl hquit =>
      rw [hq]
      cases q with
      | nil => exact hone c
      | cons r q =>
          rw [stdin_written, if_neg hl]
          exact hone c
  | @quit c q hq hkey =>
      rw [hq]
      cases q with
      | nil => exact hone c
      | cons r q =>
          rw [stdin_written, if_neg (by rw [hkey]; decide)]
          exact hone c
  | @wait c hq hkey =>
      rw [hq]
      exact hone c
  | @submenu c r q hq hkey =>
      have hcase := lin_choice_case term _ (Main.at_submenu_running hs c r q)
      have hpre : overlay r.bytes (overlay c.bytes w) <+: (s.at_submenu c r q).buffer.bytes :=
        CArray.overlay_prefix _ _ (hone c) r.bytes_le
      rw [finish_buffer, hq, stdin_written, if_pos hkey]
      exact hcase.written hpre (overlay_result_ne_nil (overlay_ne_nil c w) r)

/-- What the socket branch keeps of the record: nothing new in `buffer`, and in
`recieveBuffer` what `recv` puts there. -/
structure Kept (s s' : Main) : Prop where
  buffer : s'.buffer = s.buffer
  arrived : Client.arrived s.session.trace <+: s.recieveBuffer.bytes →
    Client.arrived s'.session.trace <+: s'.recieveBuffer.bytes

theorem Kept.after_recv {s s' : Main} (h : Kept s s') (r : Result) (q : List Result) :
    Kept s (s'.after_recv r q) := by
  refine ⟨h.buffer, fun hs => ?_⟩
  change Client.arrived (s'.session.trace ++ [.recv r]) <+: _
  rw [arrived_recv]
  exact CArray.overlay_prefix _ _ (h.arrived hs) r.bytes_le

/-- Acts that receive nothing, the arrays left alone. -/
theorem Kept.note {s s' s'' : Main} (h : Kept s s') (hbuffer : s''.buffer = s'.buffer)
    (hrecieve : s''.recieveBuffer = s'.recieveBuffer) (acts : List Act)
    (htrace : s''.session.trace = s'.session.trace ++ acts) (ha : ∀ a ∈ acts, ∀ r, a ≠ .recv r) :
    Kept s s'' := by
  refine ⟨hbuffer.trans h.buffer, fun hs => ?_⟩
  rw [htrace, arrived_append _ ha, hrecieve]
  exact h.arrived hs

theorem Kept.first (term : List UInt8) (s : Main) (c : Chunk) (q : List Result)
    (hs : s.session.status = .running) : Kept s (s.first term c q) := by
  have hrefl : Kept s s := ⟨rfl, id⟩
  refine (hrefl.after_recv (.data c) q).note rfl rfl (recv_acts term s.session.telnet c.bytes) ?_ ?_
  · rw [s.first_trace term c q hs]
    simp [Main.after_recv]
  · intro a ha r hr
    have hof := recv_acts_ofReply term s.session.telnet c.bytes a ha
    rw [hr] at hof
    cases hof

theorem Kept.data {s s' : Main} (h : Kept s s') (d : CArray 512) :
    Kept s { s' with dataBuffer := d } := ⟨h.buffer, h.arrived⟩

theorem Kept.halt {s s' : Main} (h : Kept s s') (status : Status) : Kept s (s'.halt status) :=
  ⟨h.buffer, h.arrived⟩

theorem show_message_buffer (term : List UInt8) (s : Main) :
    (show_message term s).buffer = s.buffer := by
  have hpair : ∀ (s' : Main) a b green red,
      ((s'.pair term a b).setLeds green red).buffer = s'.buffer :=
    fun _ _ _ _ _ => rfl
  unfold show_message
  split
  · unfold drive_leds
    split
    · exact hpair _ _ _ _ _
    split
    · exact hpair _ _ _ _ _
    · rfl
  · rfl

/-- The socket branch, by its outcomes: each `recv` writes over the front of
`recieveBuffer`, and the record is written over in the same way. -/
theorem SocketStep.kept {term past : List UInt8} {s s' : Main} (h : SocketStep term past s s')
    (hs : s.session.status = .running) : Kept s s' := by
  have hrefl : Kept s s := ⟨rfl, id⟩
  have hfirst : ∀ c q, Kept s (s.first term c q) := fun c q => Kept.first term s c q hs
  cases h with
  | @closed r q acts status hq hr ha =>
      refine (hrefl.after_recv r q).note rfl rfl acts rfl ?_
      intro a hmem r' hr'
      have hend := ha a hmem
      rw [hr'] at hend
      cases hend
  | plain => exact hfirst _ _
  | wait_second => exact ((hfirst _ _).data _).halt _
  | no_second => exact ((hfirst _ _).data _).after_recv _ _
  | wait_third => exact ((((hfirst _ _).data _).after_recv _ _).data _).halt _
  | no_third => exact ((((hfirst _ _).data _).after_recv _ _).data _).after_recv _ _
  | @message c d e q ret hq hret =>
      have hrun : (s.complete term past c d e q ret).session.status = .running :=
        client_recv_status term _ _ hs
      have hcomplete : Kept s (s.complete term past c d e q ret) :=
        ((((((hfirst c _).data _).after_recv (.data d) _).data _).after_recv (.data e) q).data _)
      have hshow := show_message_frame term _ hrun
      obtain ⟨acts, htrace, hof⟩ := hshow.trace
      refine hcomplete.note (show_message_buffer term _) hshow.recieveBuffer acts htrace ?_
      intro a ha r hr
      have hcan := hof a ha
      rw [hr] at hcan
      cases hcan

/-- The record of `buffer` where the pass comes to the socket. -/
theorem at_socket_written (term pastBuffer : List UInt8) (stdin : Bool) {s : Main}
    (hs : s.session.status = .running) {w : List UInt8} (hw : w <+: s.buffer.bytes) :
    (if s.session.status = .running ∧ stdin then stdin_written s.br s.scanfs w s.stdin else w)
      <+: (s.at_socket term pastBuffer stdin).buffer.bytes := by
  unfold Main.at_socket
  by_cases hready : stdin = true
  · rw [if_pos ⟨hs, hready⟩]
    by_cases hnil : s.stdin = []
    · rw [if_neg fun h => h.2 hnil, hnil]
      exact hw
    · rw [if_pos ⟨hready, hnil⟩]
      exact stdin_branch_written term pastBuffer s hs hnil hw
  · rw [if_neg fun h => hready h.2, if_neg fun h => hready h.1]
    exact hw

/-- The same for `recieveBuffer`, which the stdin branch leaves alone. -/
theorem at_socket_arrived (term pastBuffer : List UInt8) (stdin : Bool) {s : Main}
    (hs : s.session.status = .running) (ha : arrived s.session.trace <+: s.recieveBuffer.bytes) :
    arrived (s.at_socket term pastBuffer stdin).session.trace
      <+: (s.at_socket term pastBuffer stdin).recieveBuffer.bytes := by
  have hframe := s.at_socket_frame term pastBuffer stdin hs
  obtain ⟨acts, htrace, hof⟩ := hframe.session.trace
  rw [htrace, arrived_append, hframe.recieveBuffer]
  · exact ha
  · intro a hmem r hr
    have hstdin := hof a hmem
    rw [hr] at hstdin
    cases hstdin

/-- **One pass** keeps the record right: both arrays begin with the bytes it
says have been written. -/
theorem Shadow.step_right (term : List UInt8) (x : Shadow) (p : Poll) (h : x.Right) :
    (x.step term p).Right := by
  obtain ⟨s, w⟩ := x
  obtain ⟨hw, ha⟩ := h
  by_cases hs : s.session.status = .running
  · cases p with
    | failed =>
        have hend := iteration_failed term hs
        have hleave : arrived s.leave.session.trace = arrived s.session.trace :=
          arrived_append _ (by simp)
        refine ⟨?_, ?_⟩
        · change w <+: (iteration term s .failed).buffer.bytes
          rw [hend]
          exact hw
        · change arrived (iteration term s .failed).session.trace <+: _
          rw [Shadow.step, hend, hleave]
          exact ha
    | ready stdin sock pastBuffer past =>
        have hkept : Kept (s.at_socket term pastBuffer stdin)
            (iteration term s (.ready stdin sock pastBuffer past)) := by
          rw [iteration_ready term pastBuffer past stdin sock s hs]
          split
          · next h => exact (socket_branch_step term past _ h.1 h.2.2).kept h.1
          · exact ⟨rfl, id⟩
        refine ⟨?_, hkept.arrived (at_socket_arrived term pastBuffer stdin hs ha)⟩
        change _ <+: (iteration term s (.ready stdin sock pastBuffer past)).buffer.bytes
        rw [hkept.buffer]
        exact at_socket_written term pastBuffer stdin hs hw
  · have hsame : Shadow.step term ⟨s, w⟩ p = ⟨s, w⟩ := by
      unfold Shadow.step
      simp only
      rw [iteration_stopped term s p hs]
      cases p with
      | failed => rfl
      | ready => simp [hs]
    rw [hsame]
    exact ⟨hw, ha⟩

/-! ## A pass, and runs -/

/-- **One pass**: all it looks at is inside if and only if its results are such.
The record enters on both sides, so the condition is about the results and what
they leave. -/
theorem pass_accesses_inside (x : Shadow) (p : Poll) (h : x.Right) :
    (∀ a ∈ pass_accesses x p, a.Inside) ↔ Bounded x p := by
  obtain ⟨s, w⟩ := x
  cases p with
  | failed => exact iff_of_true nofun trivial
  | ready stdin sock pastBuffer past =>
      by_cases hs : s.session.status = .running
      · have hlist : pass_accesses ⟨s, w⟩ (.ready stdin sock pastBuffer past)
            = (if stdin then stdin_accesses s pastBuffer w else [])
              ++ (if s.comes_to_socket (.ready stdin sock pastBuffer past)
                then socket_accesses s past (arrived s.session.trace) else []) := if_pos hs
        have hstdin : (∀ a ∈ (if stdin then stdin_accesses s pastBuffer w else []), a.Inside)
            ↔ (stdin → text_ends w s.stdin) := by
          split
          · next hready =>
              rw [stdin_accesses_inside s pastBuffer h.buffer]
              exact ⟨fun ht _ => ht, fun ht => ht hready⟩
          · next hready => exact iff_of_true nofun fun h => absurd h hready
        have hsock : (∀ a ∈ (if s.comes_to_socket (.ready stdin sock pastBuffer past)
            then socket_accesses s past (arrived s.session.trace) else []), a.Inside)
            ↔ (s.comes_to_socket (.ready stdin sock pastBuffer past) →
              marker_ends (arrived s.session.trace) s.socket) := by
          split
          · next hcomes =>
              rw [socket_accesses_inside s past h.recieveBuffer]
              exact ⟨fun ht _ => ht, fun ht => ht hcomes⟩
          · next hcomes => exact iff_of_true nofun fun h => absurd h hcomes
        rw [hlist]
        simp only [List.mem_append, or_imp, forall_and]
        rw [hstdin, hsock]
        exact ⟨fun h _ => h, fun h => h hs⟩
      · have hlist : pass_accesses ⟨s, w⟩ (.ready stdin sock pastBuffer past) = [] := if_neg hs
        rw [hlist]
        exact iff_of_true nofun fun h => absurd h hs

/-- The record is beside the program, not in it: the run is the one the program
has without it. -/
theorem Shadow.run_main (term : List UInt8) (x : Shadow) (polls : List Poll) :
    (run (Shadow.step term) x polls).main = main_loop term x.main polls := by
  induction polls generalizing x with
  | nil => rfl
  | cons p polls ih => exact ih (x.step term p)

/-- **Runs**: with the record kept beside the program's own run, in every pass
everything looked at is inside its array and was written, if and only if every
pass is `Bounded`. -/
theorem accesses_inside (term : List UInt8) (buffer recieveBuffer dataBuffer : CArray 512)
    (stdin : List Result) (scanfs : List (Option Int32)) (socket : List Result)
    (polls : List Poll) :
    (run (Shadow.step term) ⟨.start buffer recieveBuffer dataBuffer stdin scanfs socket, []⟩
        polls).main
      = main_loop term (.start buffer recieveBuffer dataBuffer stdin scanfs socket) polls
    ∧ (Along (Shadow.step term) (fun x p => ∀ a ∈ pass_accesses x p, a.Inside)
        ⟨.start buffer recieveBuffer dataBuffer stdin scanfs socket, []⟩ polls
      ↔ Along (Shadow.step term) Bounded
        ⟨.start buffer recieveBuffer dataBuffer stdin scanfs socket, []⟩ polls) := by
  refine ⟨Shadow.run_main term _ polls, ?_⟩
  refine along_congr (Shadow.step term) (I := Shadow.Right) ?_ ?_ ?_ polls
  · intro x p hx
    exact pass_accesses_inside x p hx
  · intro x p hx _
    exact x.step_right term p hx
  · exact ⟨List.nil_prefix, List.nil_prefix⟩

/-- The first key of a session: `strlen` looks for a NUL in bytes nobody
wrote. -/
theorem first_key_unwritten :
    ¬ Along (Shadow.step []) (fun x p => ∀ a ∈ pass_accesses x p, a.Inside)
      ⟨.start (.fill 512 0) (.fill 512 0) (.fill 512 0) [keystroke (chr 's')] [] [], []⟩
      [.ready true false [] []] := by
  rintro ⟨h, _⟩
  exact absurd (h ⟨1, 1⟩ (by decide)) (by decide)

end AutoMag.Client
