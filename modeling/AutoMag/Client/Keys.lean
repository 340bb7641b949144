/-
`Client/Keys.lean` -- the stdin branch, taken apart once.

`Client/Menu.lean` follows the reads the operator means; this is every read there can
be, with the failures of the submenu's own `read`, a `scanf` that converts nothing and
texts of any length. `StdinCase` and `LinCase` list the outcomes with the state each
leaves, and `goes_on` says from the results alone whether the pass comes to the socket.
-/
import AutoMag.Client.Menu

set_option autoImplicit false

namespace AutoMag.Client

open AutoMag.CMemory AutoMag.Libtelnet AutoMag.Machine

/-! ## The submenu -/

/-- `l` has been read with whatever followed it in the same read, and the
submenu has read `r`. -/
def Main.at_submenu (s : Main) (c : Chunk) (r : Result) (q : List Result) : Main :=
  ((((s.after_read (.data c) (r :: q)).setRs 1).log (menu_prompts ++ lin_prompts)).after_read r
    q).setRs r.count

@[simp] theorem Main.at_submenu_session (s : Main) (c : Chunk) (r : Result) (q : List Result) :
    (s.at_submenu c r q).session
      = s.session.log (.read (.data c) :: menu_prompts ++ lin_prompts ++ [.read r]) := by
  simp [Main.at_submenu]

theorem Main.at_submenu_running {s : Main} (hs : s.session.status = .running) (c : Chunk)
    (r : Result) (q : List Result) : (s.at_submenu c r q).session.status = .running := by
  rw [Main.at_submenu_session]
  exact hs

/-- What the `switch` of the submenu can do. -/
inductive LinCase (s : Main) : Main → Prop
  /-- a mode, and no number typed yet -/
  | wait {m : LinMode} (hkey : s.buffer.bytes.headD 0 = m.key) (hv : s.scanfs = []) :
      LinCase s ((s.log [.printf (ascii "Please enter boudrate:")]).halt .blocked)
  /-- a mode; a number that was not converted leaves the old one -/
  | opened {m : LinMode} {v : Option Int32} {rest : List (Option Int32)}
      (hkey : s.buffer.bytes.headD 0 = m.key) (hv : s.scanfs = v :: rest) :
      LinCase s ((s.opened m (v.getD s.br) rest).log
        (.printf (ascii "Please enter boudrate:") :: .scanf (v.map Int32.toInt)
          :: input_acts .stdin s.session.do_echo (m.line (v.getD s.br).toInt ++ ascii "\r\n")))
  /-- `LIN CLOSE` -/
  | close (hkey : s.buffer.bytes.headD 0 = chr '6') :
      LinCase s { s.log (input_acts .stdin s.session.do_echo (ascii "LIN CLOSE\r")) with
        buffer := CArray.fill 512 0 }
  /-- any other key -/
  | other (hmode : LinMode.of_key (s.buffer.bytes.headD 0) = none)
      (hclose : s.buffer.bytes.headD 0 ≠ chr '6') :
      LinCase s (s.log [.printf (ascii "There is no option for " ++ [s.buffer.bytes.headD 0, LF])])

theorem LinMode.key_of_key {key : UInt8} {m : LinMode} (h : LinMode.of_key key = some m) :
    key = m.key := by
  have hfind := List.find?_some h
  simp only [decide_eq_true_eq] at hfind
  exact hfind.symm

/-- **The submenu does one of these.** The keys are gone through here once;
later proofs have a case for each outcome and none for a key. -/
theorem lin_choice_case (term : List UInt8) (s : Main) (hs : s.session.status = .running) :
    LinCase s (lin_choice term s) := by
  cases hmode : LinMode.of_key (s.buffer.bytes.headD 0) with
  | some m =>
      have hkey := LinMode.key_of_key hmode
      rw [lin_choice_open term s m hkey]
      cases hv : s.scanfs with
      | nil =>
          have hwait : lin_open term m.text s
              = (s.log [.printf (ascii "Please enter boudrate:")]).halt .blocked := by
            have hscan : (s.log [.printf (ascii "Please enter boudrate:")]).scanfs = [] := hv
            unfold lin_open
            simp only [hscan]
          rw [hwait]
          exact .wait hkey hv
      | cons v rest =>
          rw [lin_open_spec term s m v rest hs hv]
          exact .opened hkey hv
  | none =>
      by_cases hclose : s.buffer.bytes.headD 0 = chr '6'
      · rw [lin_choice_close term s hs hclose]
        exact .close hclose
      · have hne : ∀ m : LinMode, s.buffer.bytes.headD 0 ≠ m.key := by
          intro m h
          rw [h, LinMode.of_key_key] at hmode
          cases hmode
        have hother : lin_choice term s = s.log
            [.printf (ascii "There is no option for " ++ [s.buffer.bytes.headD 0, LF])] := by
          have h1 : s.buffer.bytes.headD 0 ≠ chr '1' := hne .master1x
          have h2 : s.buffer.bytes.headD 0 ≠ chr '2' := hne .master2x
          have h3 : s.buffer.bytes.headD 0 ≠ chr '3' := hne .slave1x
          have h4 : s.buffer.bytes.headD 0 ≠ chr '4' := hne .slave2x
          have h5 : s.buffer.bytes.headD 0 ≠ chr '5' := hne .free
          unfold lin_choice
          simp only
          rw [if_neg h1, if_neg h2, if_neg h3, if_neg h4, if_neg h5, if_neg hclose]
        rw [hother]
        exact .other hmode hclose

/-! ## The branch -/

/-- What a read that begins neither with `l` nor with `q` notes. -/
def key_acts (do_echo : Bool) (key : UInt8) : List Act :=
  if key = 0 then input_acts .stdin do_echo [key] ++ input_acts .stdin do_echo [key]
  else if key = chr 's' then setup_acts do_echo
  else text_acts do_echo key

/-- The trailing `_input(buffer, rs)`, unless the process has stopped. -/
def Main.finish (term : List UInt8) (s : Main) : Main :=
  if s.session.status = .running then s.input_buffer term else s

/-- What the stdin branch can do, by the results it gets. -/
inductive StdinCase (term : List UInt8) (s : Main) : Main → Prop
  /-- 0 or -1 from the menu's read -/
  | ended {r : Result} {q : List Result} (hq : s.stdin = r :: q) (hr : ∀ c, r ≠ .data c) :
      StdinCase term s ((s.after_read r q).setRs 0).leave
  | key {c : Chunk} {q : List Result} (hq : s.stdin = .data c :: q) (hl : c.key ≠ chr 'l')
      (hquit : c.key ≠ chr 'q') :
      StdinCase term s
        (((s.after_read (.data c) q).setRs 1).log (key_acts s.session.do_echo c.key))
  | quit {c : Chunk} {q : List Result} (hq : s.stdin = .data c :: q) (hkey : c.key = chr 'q') :
      StdinCase term s
        ((((s.after_read (.data c) q).setRs 1).log menu_prompts).halt (.exited 1))
  /-- the submenu's read has no result yet -/
  | wait {c : Chunk} (hq : s.stdin = [.data c]) (hkey : c.key = chr 'l') :
      StdinCase term s
        ((((s.after_read (.data c) []).setRs 1).log (menu_prompts ++ lin_prompts)).halt .blocked)
  | submenu {c : Chunk} {r : Result} {q : List Result} (hq : s.stdin = .data c :: r :: q)
      (hkey : c.key = chr 'l') :
      StdinCase term s ((lin_choice term (s.at_submenu c r q)).finish term)

/-- A read whose first byte is NUL: `strlen` is 0 and the menu is not shown. The
byte is sent all the same, by the `_input` behind the menu. -/
theorem stdin_branch_nul (term past : List UInt8) {s : Main} {c : Chunk} {q : List Result}
    (hq : s.stdin = .data c :: q) (h0 : c.key = 0) (hs : s.session.status = .running) :
    stdin_branch term past s
      = ((s.after_read (.data c) q).setRs 1).log (key_acts s.session.do_echo c.key) := by
  have htake : ((s.after_read (.data c) q).setRs 1).buffer.bytes.take 1 = [c.key] :=
    after_read_take_one s c q
  have hlen : ¬ 1 ≤ strlen (((s.after_read (.data c) q).setRs 1).buffer.bytes ++ past) := by
    change ¬ 1 ≤ strlen ((s.after_read (.data c) q).buffer.bytes ++ past)
    rw [after_read_bytes, c.bytes_eq, List.cons_append, List.cons_append, strlen_cons, if_pos h0]
    omega
  have honce : ((s.after_read (.data c) q).setRs 1).input_buffer term
      = ((s.after_read (.data c) q).setRs 1).log (input_acts .stdin s.session.do_echo [c.key]) := by
    rw [input_buffer_spec term ((s.after_read (.data c) q).setRs 1) 1 hs rfl (by omega), htake]
    rfl
  unfold stdin_branch
  rw [Main.read_cons hq]
  unfold typed
  simp only
  rw [if_neg hlen, honce, if_pos (by exact hs),
    input_buffer_spec term (((s.after_read (.data c) q).setRs 1).log _) 1 hs rfl (by omega),
    Main.log_buffer, htake, Main.log_log, key_acts, if_pos h0]
  rfl

theorem menu_submenu (term : List UInt8) (s : Main) (c : Chunk) (hkey : c.key = chr 'l')
    (q : List Result) :
    menu term ((s.after_read (.data c) q).setRs 1)
      = lin_menu term ((s.after_read (.data c) q).setRs 1 |>.log menu_prompts) := by
  have hhead : ((s.after_read (.data c) q).setRs 1).buffer.bytes.headD 0 = chr 'l' :=
    (after_read_headD s c q).trans hkey
  unfold menu menu_choice
  simp only [Main.log_buffer, hhead]
  rw [if_pos trivial]

/-- **The stdin branch does one of these**: the input has ended, a key did its
work at once, it was `q`, or the submenu was opened, with a result for its
`read` or none yet. -/
theorem stdin_branch_case (term past : List UInt8) (s : Main) (hs : s.session.status = .running)
    (hne : s.stdin ≠ []) : StdinCase term s (stdin_branch term past s) := by
  obtain ⟨r, q, hq⟩ := List.exists_cons_of_ne_nil hne
  cases r with
  | eof =>
      rw [stdin_branch_end term past hq nofun]
      exact .ended hq nofun
  | error errno =>
      rw [stdin_branch_end term past hq nofun]
      exact .ended hq nofun
  | data c =>
      by_cases h0 : c.key = 0
      · rw [stdin_branch_nul term past hq h0 hs]
        exact .key hq (by rw [h0]; decide) (by rw [h0]; decide)
      by_cases hl : c.key = chr 'l'
      · -- the submenu reads on its own
        rw [stdin_branch_key term past hq h0, menu_submenu term s c hl]
        cases q with
        | nil =>
            have hmenu : lin_menu term (((s.after_read (.data c) []).setRs 1).log menu_prompts)
                = (((s.after_read (.data c) []).setRs 1).log (menu_prompts ++ lin_prompts)).halt
                  .blocked := by
              unfold lin_menu
              rw [Main.log_log]
              rfl
            rw [hmenu, if_neg (by simp [Main.halt])]
            exact .wait hq hl
        | cons r q =>
            have hmenu : lin_menu term
                (((s.after_read (.data c) (r :: q)).setRs 1).log menu_prompts)
                  = lin_choice term (s.at_submenu c r q) := by
              unfold lin_menu
              rw [Main.log_log, Main.read_cons (q := q) (by rfl)]
              rfl
            rw [hmenu]
            exact .submenu hq hl
      by_cases hqu : c.key = chr 'q'
      · have hquit : menu term ((s.after_read (.data c) q).setRs 1)
            = (((s.after_read (.data c) q).setRs 1).log menu_prompts).halt (.exited 1) := by
          have hhead : ((s.after_read (.data c) q).setRs 1).buffer.bytes.headD 0 = chr 'q' :=
            (after_read_headD s c q).trans hqu
          unfold menu menu_choice
          simp only [Main.log_buffer, hhead]
          rfl
        rw [stdin_branch_key term past hq h0, hquit, if_neg (by simp [Main.halt])]
        exact .quit hq hqu
      by_cases hset : c.key = chr 's'
      · have hacts : setup_acts s.session.do_echo = key_acts s.session.do_echo c.key := by
          rw [key_acts, if_neg h0, if_pos hset]
        rw [stdin_branch_setup term past hq hset hs, hacts]
        exact .key hq hl hqu
      · have hacts : text_acts s.session.do_echo c.key = key_acts s.session.do_echo c.key := by
          rw [key_acts, if_neg h0, if_neg hset]
        rw [stdin_branch_text term past hq h0 hl hset hqu hs, hacts]
        exact .key hq hl hqu

/-! ## After the menu -/

/-- The submenu's read got an answer the program gets past: not an error, and no
mode without a number. -/
def answered (scanfs : List (Option Int32)) : List Result → Prop
  | .data d :: _ => LinMode.of_key d.key ≠ none → scanfs ≠ []
  | .eof :: _ => True
  | _ => False

/-- The pass goes on after the stdin branch. -/
def goes_on (scanfs : List (Option Int32)) : List Result → Prop
  | .data c :: q => c.key ≠ chr 'q' ∧ (c.key = chr 'l' → answered scanfs q)
  | _ => False

instance (scanfs : List (Option Int32)) (q : List Result) : Decidable (answered scanfs q) :=
  match q with
  | [] => .isFalse id
  | .data d :: _ => inferInstanceAs (Decidable (LinMode.of_key d.key ≠ none → scanfs ≠ []))
  | .eof :: _ => .isTrue trivial
  | .error _ :: _ => .isFalse id

instance (scanfs : List (Option Int32)) (q : List Result) : Decidable (goes_on scanfs q) :=
  match q with
  | [] => .isFalse id
  | .data c :: q =>
    inferInstanceAs (Decidable (c.key ≠ chr 'q' ∧ (c.key = chr 'l' → answered scanfs q)))
  | .eof :: _ => .isFalse id
  | .error _ :: _ => .isFalse id

theorem at_submenu_bytes (s : Main) (c : Chunk) (r : Result) (q : List Result) :
    (s.at_submenu c r q).buffer = (s.buffer.write 0 c.bytes).write 0 r.bytes := rfl

/-- A read that brought data is what the `switch` looks at. -/
theorem at_submenu_key (s : Main) (c d : Chunk) (q : List Result) :
    (s.at_submenu c (.data d) q).buffer.bytes.headD 0 = d.key :=
  after_read_headD _ d q

/-- After one that did not, it looks at the `l` that opened the submenu: nothing
has overwritten it. -/
theorem at_submenu_none (s : Main) (c : Chunk) (hkey : c.key = chr 'l') {r : Result}
    (hr : r.bytes = []) (q : List Result) :
    (s.at_submenu c r q).buffer.bytes.headD 0 = chr 'l' := by
  have hhead : (s.buffer.write 0 c.bytes).bytes.headD 0 = c.key := after_read_headD s c q
  rw [at_submenu_bytes, hr, CArray.write_zero_bytes _ _ (by simp)]
  exact hhead.trans hkey

/-- What the `switch` of the submenu leaves alone: the count of its `read`, with
which `_input` is called afterwards. -/
theorem LinCase.frame {s s' : Main} (h : LinCase s s') :
    s'.rs = s.rs ∧ s'.session.do_echo = s.session.do_echo := by
  cases h <;> exact ⟨rfl, rfl⟩

/-- It stops the process only to wait for a number, and does so only after a key
that asks for one. -/
theorem LinCase.status {s s' : Main} (h : LinCase s s') (hs : s.session.status = .running) :
    s'.session.status = .running
      ↔ (LinMode.of_key (s.buffer.bytes.headD 0) ≠ none → s.scanfs ≠ []) := by
  cases h with
  | wait hkey hv =>
      refine iff_of_false nofun ?_
      intro h
      apply h _ hv
      rw [hkey, LinMode.of_key_key]
      nofun
  | opened hkey hv => exact iff_of_true hs fun _ => by rw [hv]; nofun
  | close hkey =>
      refine iff_of_true hs fun h => absurd ?_ h
      rw [hkey]
      decide
  | other hmode => exact iff_of_true hs fun h => absurd hmode h

/-- The trailing `_input` with the number of bytes the submenu read, from the
front of whatever `buffer` holds by then. -/
theorem finish_count {term : List UInt8} {s : Main} {n : ℕ} (hs : s.session.status = .running)
    (hrs : s.rs = n) (hn : n ≤ 512) :
    s.finish term = s.log (input_acts .stdin s.session.do_echo (s.buffer.bytes.take n)) := by
  rw [Main.finish, if_pos hs, input_buffer_spec term s n hs hrs hn]

/-- With -1 the loop of `_input` leaves the array: it goes on while `i != size`,
and counting up from 0 it does not come to -1. -/
theorem finish_error {term : List UInt8} {s : Main} (hs : s.session.status = .running)
    (hrs : s.rs = -1) :
    s.finish term = (s.log (.input .stdin s.buffer.bytes (-1)
      :: s.buffer.bytes.flatMap (char_acts .stdin s.session.do_echo))).halt .overrun := by
  rw [Main.finish, if_pos hs, Main.input_buffer, hrs, input, if_pos (by decide),
    input_loop_spec term .stdin _ (s.session.log _) hs]
  simp [Main.halt, Main.log, hrs]

theorem finish_stopped {term : List UInt8} {s : Main} (hs : s.session.status ≠ .running) :
    s.finish term = s := if_neg hs

/-- **Whether the pass goes on** is in the results: the keys, and whether the
answers they ask for are there. -/
theorem stdin_branch_running (term past : List UInt8) (s : Main)
    (hs : s.session.status = .running) (hne : s.stdin ≠ []) :
    (stdin_branch term past s).session.status = .running ↔ goes_on s.scanfs s.stdin := by
  have hbranch := stdin_branch_case term past s hs hne
  generalize stdin_branch term past s = s₁ at hbranch
  cases hbranch with
  | @ended r q hq hr =>
      rw [hq]
      refine iff_of_false nofun ?_
      cases r with
      | data c => exact absurd rfl (hr c)
      | eof => exact id
      | error errno => exact id
  | key hq hl hquit =>
      rw [hq]
      exact iff_of_true hs ⟨hquit, fun h => absurd h hl⟩
  | quit hq hkey =>
      rw [hq]
      exact iff_of_false nofun fun h => h.1 hkey
  | wait hq hkey =>
      rw [hq]
      exact iff_of_false nofun fun h => h.2 hkey
  | @submenu c r q hq hkey =>
      rw [hq]
      have hat := Main.at_submenu_running hs c r q
      have hcase := lin_choice_case term (s.at_submenu c r q) hat
      generalize lin_choice term (s.at_submenu c r q) = s' at hcase
      have hstatus := hcase.status hat
      have hrs : s'.rs = r.count := hcase.frame.1
      have hgo : goes_on s.scanfs (.data c :: r :: q) ↔ answered s.scanfs (r :: q) :=
        ⟨fun h => h.2 hkey, fun h => ⟨by rw [hkey]; decide, fun _ => h⟩⟩
      rw [hgo]
      cases r with
      | data d =>
          rw [at_submenu_key] at hstatus
          by_cases hrun : s'.session.status = .running
          · rw [finish_count hrun hrs d.le]
            exact hstatus
          · rw [finish_stopped hrun]
            exact hstatus
      | eof =>
          -- the `l` is no key of the submenu
          have hrun : s'.session.status = .running := by
            rw [hstatus, at_submenu_none s c hkey rfl]
            exact fun h => absurd (by decide) h
          rw [finish_count (n := 0) hrun hrs (by omega)]
          exact iff_of_true hrun trivial
      | error errno =>
          have hrun : s'.session.status = .running := by
            rw [hstatus, at_submenu_none s c hkey rfl]
            exact fun h => absurd (by decide) h
          rw [finish_error hrun hrs]
          exact iff_of_false nofun id

/-- The state in which a pass comes to the socket. -/
def Main.at_socket (term pastBuffer : List UInt8) (stdin : Bool) (s : Main) : Main :=
  if stdin ∧ s.stdin ≠ [] then stdin_branch term pastBuffer s else s

/-- A pass, with the stdin branch and the socket branch apart. -/
theorem iteration_ready (term pastBuffer past : List UInt8) (stdin sock : Bool) (s : Main)
    (hs : s.session.status = .running) :
    iteration term s (.ready stdin sock pastBuffer past)
      = if (s.at_socket term pastBuffer stdin).session.status = .running ∧ sock
          ∧ (s.at_socket term pastBuffer stdin).socket ≠ []
        then socket_branch term past (s.at_socket term pastBuffer stdin)
        else s.at_socket term pastBuffer stdin := by
  unfold iteration Main.at_socket
  rw [if_neg (by simp [hs])]

/-- `poll` has failed. -/
theorem iteration_failed (term : List UInt8) {s : Main} (hs : s.session.status = .running) :
    iteration term s .failed = s.leave := if_neg (by simp [hs])

/-- A pass after the process has stopped is none. -/
theorem iteration_stopped (term : List UInt8) (s : Main) (p : Poll)
    (hs : s.session.status ≠ .running) : iteration term s p = s := if_pos hs

/-- The pass comes to the socket, and there is something to receive. -/
def Main.comes_to_socket (s : Main) : Poll → Prop
  | .failed => False
  | .ready stdin sock _ _ =>
      s.session.status = .running ∧ sock ∧ s.socket ≠ []
        ∧ (stdin ∧ s.stdin ≠ [] → goes_on s.scanfs s.stdin)

instance (s : Main) (p : Poll) : Decidable (s.comes_to_socket p) :=
  match p with
  | .failed => .isFalse id
  | .ready stdin sock _ _ => inferInstanceAs (Decidable (s.session.status = .running ∧ sock
      ∧ s.socket ≠ [] ∧ (stdin ∧ s.stdin ≠ [] → goes_on s.scanfs s.stdin)))

theorem Main.at_socket_frame (term pastBuffer : List UInt8) (stdin : Bool) (s : Main)
    (hs : s.session.status = .running) : StdinFrame s (s.at_socket term pastBuffer stdin) := by
  unfold Main.at_socket
  split
  · exact stdin_branch_frame term pastBuffer s hs
  · exact ⟨rfl, rfl, rfl, rfl, rfl, SessionFrame.refl _⟩

theorem comes_to_socket_iff (term pastBuffer past : List UInt8) (stdin sock : Bool) (s : Main)
    (hs : s.session.status = .running) :
    ((s.at_socket term pastBuffer stdin).session.status = .running ∧ sock
        ∧ (s.at_socket term pastBuffer stdin).socket ≠ [])
      ↔ s.comes_to_socket (.ready stdin sock pastBuffer past) := by
  have hrun : (s.at_socket term pastBuffer stdin).session.status = .running
      ↔ (stdin ∧ s.stdin ≠ [] → goes_on s.scanfs s.stdin) := by
    unfold Main.at_socket
    split
    · next h =>
        rw [stdin_branch_running term pastBuffer s hs h.2]
        exact ⟨fun hgo _ => hgo, fun hgo => hgo h⟩
    · next h => exact iff_of_true hs fun h' => absurd h' h
  rw [hrun, (s.at_socket_frame term pastBuffer stdin hs).socket]
  exact ⟨fun ⟨h1, h2, h3⟩ => ⟨hs, h2, h3, h1⟩, fun ⟨_, h2, h3, h1⟩ => ⟨h1, h2, h3⟩⟩

end AutoMag.Client
