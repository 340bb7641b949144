/-
`Client/Sizes.lean` -- the sizes `_input` is called with.

`Within` is what is asked of a pass: each size is one its text has, so that the loop of
`_input` ends inside it. It goes wrong where `rs` and `buffer` part company: in the
submenu, whose `read` sets `rs` and whose `switch` then writes `buffer`. `SizesFit` is the
exact condition, on the result of that `read`.
-/
import AutoMag.Client.Calls

set_option autoImplicit false

namespace AutoMag.Client

open AutoMag.CMemory AutoMag.Libtelnet AutoMag.Machine

/-! ## What is asked for -/

/-- The loop `for (i = 0; i != size; ++i)` ends, inside the text. -/
def Call.Fits (c : Call) : Prop := 0 ≤ c.size ∧ c.size ≤ c.text.length

instance (c : Call) : Decidable c.Fits := inferInstanceAs (Decidable (_ ∧ _))

/-- A pass from `s` to `s'` keeps inside its texts: every call fits its text and
the text its array, the calls of the trace are these, and no loop has run
away. -/
structure Within (s : Main) (p : Poll) (s' : Main) : Prop where
  fits : ∀ c ∈ pass_calls s p, c.Fits
  room : ∀ c ∈ pass_calls s p, c.text.length ≤ 512
  made : called s'.session.trace = called s.session.trace ++ (pass_calls s p).map Call.made
  ends : s'.session.status ≠ .overrun

/-! ## The condition -/

/-- A result of the submenu's `read` after which `rs` fits what is then in
`buffer`. -/
def lin_sized (br : Int32) (scanfs : List (Option Int32)) : Result → Prop
  | .error _ => False
  | .eof => True
  | .data d =>
      match LinMode.of_key d.key, scanfs with
      | some m, v :: _ => d.bytes.length ≤ (m.line (v.getD br).toInt ++ ascii "\r\n").length
      | some _, [] => True
      | none, _ => d.key ≠ chr '6'

/-- The same for all of stdin. -/
def menu_sized (br : Int32) (scanfs : List (Option Int32)) : List Result → Prop
  | .data c :: r :: _ => c.key = chr 'l' → lin_sized br scanfs r
  | _ => True

/-- The results of a pass whose calls fit. -/
def SizesFit (s : Main) : Poll → Prop
  | .failed => True
  | .ready stdin _ _ _ => s.session.status = .running → stdin → menu_sized s.br s.scanfs s.stdin

/-! ## When the calls fit -/

theorem formatted_fits {text : List UInt8} (h : ∀ b ∈ text, b ≠ 0) : (formatted text).Fits := by
  rw [Call.Fits, formatted_size h]
  exact ⟨Int.natCast_nonneg _, Int.le_refl _⟩

theorem key_calls_fits (c : Chunk) : ∀ call ∈ key_calls c, call.Fits := by
  have hone : (⟨c.bytes, 1⟩ : Call).Fits := by
    have hpos := List.length_pos_of_ne_nil c.nonempty
    refine ⟨Int.one_nonneg, ?_⟩
    change (1 : ℤ) ≤ (c.bytes.length : ℤ)
    omega
  intro call hcall
  unfold key_calls at hcall
  split at hcall
  · simp only [List.mem_cons, List.not_mem_nil, or_false, or_self] at hcall
    rw [hcall]
    exact hone
  split at hcall
  · rcases List.mem_append.mp hcall with hcall | hcall
    · obtain ⟨t, ht, rfl⟩ := List.mem_map.mp hcall
      exact formatted_fits (setup_texts_plain t ht)
    · rw [List.mem_singleton.mp hcall]
      exact hone
  · simp only [List.mem_cons, List.not_mem_nil, or_false, or_self] at hcall
    rw [hcall]
    exact hone

theorem led_calls_fits (m : List UInt8) (green red : ℕ) :
    ∀ call ∈ led_calls m green red, call.Fits := by
  have hgreen := formatted_fits green_plain.1
  have hgreen' := formatted_fits green_plain.2
  have hred := formatted_fits red_plain.1
  have hred' := formatted_fits red_plain.2
  unfold led_calls
  repeat' split
  all_goals simp [*]

theorem lin_calls_fits (br : Int32) (scanfs : List (Option Int32)) (c : Chunk)
    (hkey : c.key = chr 'l') (r : Result) :
    (∀ call ∈ lin_calls br scanfs (held c r) r.count, call.Fits) ↔ lin_sized br scanfs r := by
  have hl : LinMode.of_key (c.bytes.headD 0) = none := by
    rw [c.headD_bytes, hkey]
    decide
  have hl6 : c.bytes.headD 0 ≠ chr '6' := by
    rw [c.headD_bytes, hkey]
    decide
  cases r with
  | eof =>
      rw [show held c _ = c.bytes from rfl, lin_calls_other hl hl6]
      simp [lin_sized, Result.count, Call.Fits]
  | error errno =>
      rw [show held c _ = c.bytes from rfl, lin_calls_other hl hl6]
      simp [lin_sized, Result.count, Call.Fits]
  | data d =>
      have hd := List.length_pos_of_ne_nil d.nonempty
      rw [show held c (.data d) = d.bytes from rfl]
      cases hm : LinMode.of_key d.key with
      | none =>
          by_cases h6 : d.key = chr '6'
          · -- `bzero` has left no text, and `rs` is at least 1
            have hnil : ¬ (⟨[], (Result.data d).count⟩ : Call).Fits := by
              intro h
              have hle : (d.bytes.length : ℤ) ≤ 0 := h.2
              omega
            rw [lin_calls_close (d.headD_bytes.trans h6)]
            simp only [lin_sized, hm]
            refine iff_of_false ?_ fun h => h h6
            intro h
            exact hnil (h _ (by simp))
          · rw [lin_calls_other (d.headD_bytes ▸ hm) (d.headD_bytes ▸ h6)]
            simp only [lin_sized, hm]
            refine iff_of_true ?_ h6
            simp [Result.count, Call.Fits]
      | some m =>
          have hm' : LinMode.of_key (d.bytes.headD 0) = some m := d.headD_bytes ▸ hm
          cases scanfs with
          | nil =>
              rw [lin_calls_wait hm']
              simp only [lin_sized, hm]
              exact iff_of_true nofun trivial
          | cons v rest =>
              have hf := formatted_fits (line_ne_zero m (v.getD br).toInt)
              have hrs :
                  (⟨m.line (v.getD br).toInt ++ ascii "\r\n", (Result.data d).count⟩ : Call).Fits
                  ↔ d.bytes.length ≤ (m.line (v.getD br).toInt ++ ascii "\r\n").length := by
                simp only [Call.Fits, Result.count]
                omega
              rw [lin_calls_opened hm']
              simp only [lin_sized, hm, List.mem_cons, List.not_mem_nil, or_false, forall_eq_or_imp,
                forall_eq, hf, true_and]
              exact hrs

theorem stdin_calls_fits (br : Int32) (scanfs : List (Option Int32)) (stdin : List Result) :
    (∀ call ∈ stdin_calls br scanfs stdin, call.Fits) ↔ menu_sized br scanfs stdin := by
  match stdin with
  | [] => exact iff_of_true nofun trivial
  | .eof :: _ => exact iff_of_true nofun trivial
  | .error _ :: _ => exact iff_of_true nofun trivial
  | .data c :: q =>
      by_cases hquit : c.key = chr 'q'
      · rw [stdin_calls_quit hquit]
        refine iff_of_true nofun ?_
        cases q with
        | nil => exact trivial
        | cons r q => exact fun h => by rw [hquit] at h; cases h
      by_cases hl : c.key = chr 'l'
      · cases q with
        | nil =>
            rw [stdin_calls_wait hl]
            exact iff_of_true nofun trivial
        | cons r q =>
            rw [stdin_calls_lin hl r, lin_calls_fits br scanfs c hl r]
            exact ⟨fun h _ => h, fun h => h hl⟩
      · rw [stdin_calls_key hl hquit]
        refine iff_of_true (key_calls_fits c) ?_
        cases q with
        | nil => exact trivial
        | cons r q => exact fun h => absurd h hl

theorem socket_calls_fits (s : Main) (past : List UInt8) :
    ∀ call ∈ socket_calls s past, call.Fits := by
  unfold socket_calls
  split
  · split
    · exact led_calls_fits _ _ _
    · nofun
  · nofun

/-- The calls of a pass fit exactly under the condition, call by call. -/
theorem pass_calls_fits (s : Main) (p : Poll) :
    (∀ call ∈ pass_calls s p, call.Fits) ↔ SizesFit s p := by
  by_cases hs : s.session.status = .running
  · cases p with
    | failed => exact iff_of_true nofun trivial
    | ready stdin sock pastBuffer past =>
        have hsock : ∀ call ∈ (if s.comes_to_socket (.ready stdin sock pastBuffer past)
            then socket_calls s past else []), call.Fits := by
          split
          · exact socket_calls_fits s past
          · nofun
        have hstdin : (∀ call ∈ (if stdin ∧ s.stdin ≠ [] then stdin_calls s.br s.scanfs s.stdin
            else []), call.Fits) ↔ (stdin → menu_sized s.br s.scanfs s.stdin) := by
          split
          · next h =>
              rw [stdin_calls_fits]
              exact ⟨fun hm _ => hm, fun hm => hm h.1⟩
          · next h =>
              refine iff_of_true nofun fun hready => ?_
              have hnil : s.stdin = [] := by
                by_contra hne
                exact h ⟨hready, hne⟩
              rw [hnil]
              exact trivial
        rw [pass_calls_ready hs]
        constructor
        · intro h _
          exact hstdin.mp fun call hcall => h call (List.mem_append_left _ hcall)
        · intro h call hcall
          rcases List.mem_append.mp hcall with hcall | hcall
          · exact hstdin.mpr (h hs) call hcall
          · exact hsock call hcall
  · rw [pass_calls_stopped hs]
    refine iff_of_true nofun ?_
    cases p with
    | failed => exact trivial
    | ready => exact fun h => absurd h hs

/-! No text is longer than the array it is in. -/

theorem lin_calls_room (br : Int32) (scanfs : List (Option Int32)) (c : Chunk) (r : Result) :
    ∀ call ∈ lin_calls br scanfs (held c r) r.count, call.text.length ≤ 512 := by
  have hline : ∀ (m : LinMode) (v : Int32), (m.line v.toInt ++ ascii "\r\n").length ≤ 512 :=
    fun m v => (line_length_le m v).trans (by decide)
  have hheld : (held c r).length ≤ 512 := by
    cases r with
    | data d => exact d.le
    | eof => exact c.le
    | error errno => exact c.le
  unfold lin_calls
  split
  · simp
  · simp only [List.mem_cons, List.not_mem_nil, or_false, forall_eq_or_imp, forall_eq]
    exact ⟨hline _ _, hline _ _⟩
  split
  · simp only [List.mem_cons, List.not_mem_nil, or_false, forall_eq_or_imp, forall_eq]
    exact ⟨by decide, by decide⟩
  · simp only [List.mem_singleton, forall_eq]
    exact hheld

theorem key_calls_room (c : Chunk) : ∀ call ∈ key_calls c, call.text.length ≤ 512 := by
  have hsetup : ∀ t ∈ setup_texts, (ascii t).length ≤ 512 := by decide
  have hone : ∀ call ∈ [(⟨c.bytes, 1⟩ : Call), ⟨c.bytes, 1⟩], call.text.length ≤ 512 := by
    simp only [List.mem_cons, List.not_mem_nil, or_false, or_self, forall_eq]
    exact c.le
  unfold key_calls
  split
  · exact hone
  split
  · intro call hcall
    rcases List.mem_append.mp hcall with hcall | hcall
    · obtain ⟨t, ht, rfl⟩ := List.mem_map.mp hcall
      exact hsetup t ht
    · exact hone call (List.mem_cons_of_mem _ hcall)
  · exact hone

theorem stdin_calls_room (br : Int32) (scanfs : List (Option Int32)) (stdin : List Result) :
    ∀ call ∈ stdin_calls br scanfs stdin, call.text.length ≤ 512 := by
  unfold stdin_calls
  split
  · split
    · nofun
    split
    · intro call hcall
      obtain ⟨r, _, hcall⟩ := List.mem_flatMap.mp hcall
      exact lin_calls_room br scanfs _ r call hcall
    · exact key_calls_room _
  · nofun

theorem socket_calls_room (s : Main) (past : List UInt8) :
    ∀ call ∈ socket_calls s past, call.text.length ≤ 512 := by
  unfold socket_calls led_calls
  repeat' split
  all_goals simp [formatted, ascii]

theorem pass_calls_room (s : Main) (p : Poll) :
    ∀ call ∈ pass_calls s p, call.text.length ≤ 512 := by
  unfold pass_calls
  split
  · nofun
  split
  · intro call hcall
    rcases List.mem_append.mp hcall with hcall | hcall
    · split at hcall
      · exact stdin_calls_room _ _ _ call hcall
      · cases hcall
    · split at hcall
      · exact socket_calls_room s _ call hcall
      · cases hcall
  · nofun

/-! ## A pass, and runs -/

section LinSized

variable {br : Int32} {scanfs : List (Option Int32)} {r : Result}

/-- A result the submenu can cope with counts the bytes it brought. -/
theorem lin_sized_count (hfit : lin_sized br scanfs r) : ∃ n : ℕ, r.count = n ∧ n ≤ 512 := by
  cases r with
  | data d => exact ⟨d.bytes.length, rfl, d.le⟩
  | eof => exact ⟨0, rfl, Nat.zero_le _⟩
  | error errno => exact absurd hfit id

/-- It is no longer than the command written on top of it, so the bytes `_input`
runs over are all of the command. -/
theorem lin_sized_opened {v : Option Int32} {rest : List (Option Int32)} {c : Chunk} {m : LinMode}
    {n : ℕ} (hfit : lin_sized br (v :: rest) r) (hn : r.count = n)
    (hm : LinMode.of_key ((held c r).headD 0) = some m) :
    n ≤ (m.line (v.getD br).toInt ++ ascii "\r\n").length := by
  cases r with
  | data d =>
      have hm' : LinMode.of_key d.key = some m := by
        rw [← d.headD_bytes]
        exact hm
      have hcount : (d.bytes.length : ℤ) = n := hn
      simp only [lin_sized, hm'] at hfit
      omega
  | eof =>
      have hcount : (0 : ℤ) = n := hn
      omega
  | error errno => exact absurd hfit id

/-- It does not close the bus: behind that command `buffer` is empty, and any
size is too much. -/
theorem lin_sized_not_close {c : Chunk} (hkey : c.key = chr 'l') (hfit : lin_sized br scanfs r) :
    (held c r).headD 0 ≠ chr '6' := by
  intro h
  cases r with
  | data d =>
      have h6 : d.key = chr '6' := d.headD_bytes.symm.trans h
      have hm : LinMode.of_key d.key = none := by
        rw [h6]
        decide
      simp only [lin_sized, hm] at hfit
      exact absurd h6 hfit
  | eof =>
      have h6 : c.key = chr '6' := c.headD_bytes.symm.trans h
      rw [hkey] at h6
      cases h6
  | error errno => exact absurd hfit id

end LinSized

/-- The submenu, when its result fits: the texts of its calls are known as well
as their sizes. -/
theorem submenu_called (term : List UInt8) (s : Main) (c : Chunk) (hkey : c.key = chr 'l')
    (r : Result) (q : List Result) (hs : s.session.status = .running)
    (hfit : lin_sized s.br s.scanfs r) :
    called ((lin_choice term (s.at_submenu c r q)).finish term).session.trace
        = called s.session.trace ++ (lin_calls s.br s.scanfs (held c r) r.count).map Call.made
      ∧ ((lin_choice term (s.at_submenu c r q)).finish term).session.status ≠ .overrun := by
  have hat := Main.at_submenu_running hs c r q
  have hheld := at_submenu_held s c r q
  obtain ⟨n, hn, hle⟩ := lin_sized_count hfit
  have hcase := lin_choice_case term (s.at_submenu c r q) hat
  have hrs := hcase.frame.1.trans hn
  rw [← at_submenu_called s c r q]
  generalize lin_choice term (s.at_submenu c r q) = s' at hcase hrs
  cases hcase with
  | @wait m hmode hv =>
      have hm : LinMode.of_key ((held c r).headD 0) = some m := by
        rw [← hheld, hmode, LinMode.of_key_key]
      have hv : s.scanfs = [] := hv
      rw [finish_stopped (by simp [Main.halt]), hv, lin_calls_wait hm, List.map_nil,
        List.append_nil]
      exact ⟨called_none _ rfl, by simp [Main.halt]⟩
  | @opened m v rest hmode hv =>
      have hm : LinMode.of_key ((held c r).headD 0) = some m := by
        rw [← hheld, hmode, LinMode.of_key_key]
      have hscan : s.scanfs = v :: rest := hv
      rw [hscan] at hfit
      -- `rs` is the length of what the command has been written on top of
      have hlen := lin_sized_opened hfit hn hm
      have htake : ((s.at_submenu c r q).opened m (v.getD s.br) rest).buffer.bytes.take n
          = (m.line (v.getD s.br).toInt ++ ascii "\r\n").take n := by
        rw [opened_bytes, List.take_append_of_le_length hlen]
      obtain ⟨hlast, hstatus⟩ := finish_called (by exact hat) hrs hn hle hlen htake
      refine ⟨?_, hstatus⟩
      have hcommand : called (.printf (ascii "Please enter boudrate:") :: .scanf (v.map Int32.toInt)
          :: input_acts .stdin (s.at_submenu c r q).session.do_echo
            (m.line (v.getD s.br).toInt ++ ascii "\r\n"))
          = [(formatted (m.line (v.getD s.br).toInt ++ ascii "\r\n")).made] := by
        rw [formatted_made (line_ne_zero m _)]
        exact called_input _ _ _
      rw [hlast, hscan, lin_calls_opened hm, Main.log_session, Session.log_trace, called_append]
      exact (List.append_assoc ..).trans (congrArg (_ ++ ·) (congrArg (· ++ _) hcommand))
  | close hclose => exact absurd (hheld.symm.trans hclose) (lin_sized_not_close hkey hfit)
  | other hmode hclose =>
      rw [hheld] at hmode hclose
      obtain ⟨hlen, htake⟩ := held_take s c q hn
      obtain ⟨hlast, hstatus⟩ := finish_called (by exact hat) hrs hn hle hlen htake
      refine ⟨?_, hstatus⟩
      rw [hlast, lin_calls_other hmode hclose, Main.log_session, Session.log_trace,
        called_none _ rfl, List.map_singleton]

/-- The stdin branch, when its results fit. -/
theorem stdin_branch_called (term past : List UInt8) (s : Main) (hs : s.session.status = .running)
    (hne : s.stdin ≠ []) (hfit : menu_sized s.br s.scanfs s.stdin) :
    called (stdin_branch term past s).session.trace
        = called s.session.trace ++ (stdin_calls s.br s.scanfs s.stdin).map Call.made
      ∧ (stdin_branch term past s).session.status ≠ .overrun := by
  rcases (stdin_branch_case term past s hs hne).called hs with ⟨c, r, q, hq, hkey, heq⟩ | hcalled
  · rw [hq] at hfit
    rw [heq, hq, stdin_calls_lin hkey r]
    exact submenu_called term s c hkey r q hs (hfit hkey)
  · exact hcalled

/-- A pass whose results fit does not run away over the end of an array. -/
theorem iteration_not_overrun (term : List UInt8) (s : Main) (p : Poll)
    (hs : s.session.status ≠ .overrun) (hsized : SizesFit s p) :
    (iteration term s p).session.status ≠ .overrun := by
  by_cases hrun : s.session.status = .running
  · cases p with
    | failed =>
        rw [iteration_failed term hrun]
        simp [Main.leave, Main.halt]
    | ready stdin sock pastBuffer past =>
        have hstdin : (s.at_socket term pastBuffer stdin).session.status ≠ .overrun := by
          unfold Main.at_socket
          split
          · next h => exact (stdin_branch_called term pastBuffer s hrun h.2 (hsized hrun h.1)).2
          · exact hs
        rw [iteration_ready term pastBuffer past stdin sock s hrun]
        split
        · next h => exact (socket_branch_called term past _ h.1 h.2.2).2
        · exact hstdin
  · rw [iteration_stopped term s p hrun]
    exact hs

/-- **One pass** keeps inside its texts if and only if its results fit. -/
theorem iteration_within (term : List UInt8) (s : Main) (p : Poll)
    (hs : s.session.status ≠ .overrun) : Within s p (iteration term s p) ↔ SizesFit s p := by
  refine ⟨fun h => (pass_calls_fits s p).mp h.fits, fun hsized => ?_⟩
  refine ⟨(pass_calls_fits s p).mpr hsized, pass_calls_room s p, ?_,
    iteration_not_overrun term s p hs hsized⟩
  by_cases hrun : s.session.status = .running
  · cases p with
    | failed =>
        rw [iteration_failed term hrun]
        exact (called_none _ rfl).trans (List.append_nil _).symm
    | ready stdin sock pastBuffer past =>
        apply iteration_calls called Call.made term hrun stdin sock pastBuffer past
        · intro hready hne
          exact (stdin_branch_called term pastBuffer s hrun hne (hsized hrun hready)).1
        · intro s₁ hs₁ hne
          exact (socket_branch_called term past s₁ hs₁ hne).1
  · rw [iteration_stopped term s p hrun, pass_calls_stopped hrun]
    exact (List.append_nil _).symm

/-- **Runs**: the sizes `_input` is called with in a pass are those of its
calls; and every call in every pass of a run stays inside its text, if and only
if every pass of it is `SizesFit`. -/
theorem inputs_within (term : List UInt8) (buffer recieveBuffer dataBuffer : CArray 512)
    (stdin : List Result) (scanfs : List (Option Int32)) (socket : List Result)
    (polls : List Poll) :
    (∀ s p, sizes (iteration term s p).session.trace
        = sizes s.session.trace ++ (pass_calls s p).map Call.size)
    ∧ (Along (iteration term) (fun s p => Within s p (iteration term s p))
        (.start buffer recieveBuffer dataBuffer stdin scanfs socket) polls
      ↔ Along (iteration term) SizesFit
        (.start buffer recieveBuffer dataBuffer stdin scanfs socket) polls) := by
  refine ⟨iteration_sizes term, ?_⟩
  refine along_congr (iteration term) (I := fun s => s.session.status ≠ .overrun) ?_ ?_
    Status.noConfusion polls
  · intro s p hs
    exact iteration_within term s p hs
  · intro s p hs hsized
    exact iteration_not_overrun term s p hs hsized

/-- A failing `read` in the submenu: `_input` gets -1 for a size and runs off
the array. -/
theorem submenu_error_overrun :
    ¬ Along (iteration []) (fun s p => Within s p (iteration [] s p))
        (.start (.fill 512 0) (.fill 512 0) (.fill 512 0)
          [keystroke (chr 'l'), .error "Input/output error"] [] [])
        [.ready true false [] []]
      ∧ (main_loop [] (.start (.fill 512 0) (.fill 512 0) (.fill 512 0)
          [keystroke (chr 'l'), .error "Input/output error"] [] [])
          [.ready true false [] []]).session.status = .overrun := by
  refine ⟨?_, rfl⟩
  rintro ⟨h, _⟩
  have hcall := h.fits ⟨[chr 'l'], -1⟩ (by decide)
  exact absurd hcall.1 (by decide)

end AutoMag.Client
