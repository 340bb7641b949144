/-
`Client/Panel.lean` -- the Carberry's two LEDs beside the program's idea of them.

The device replays every GPLED command either branch hands to `_input`. The
program sends a pair only when the side of a speed differs from the side of the
last message, so what it needs is that nothing else has moved the LEDs in between.
The CAN setup does: it clears both and leaves `greenLedState` and `redLedState`
alone. `leds_follow_speed` says for every run that the LEDs are right after each
message as long as no read from stdin comes between it and an earlier message on
the same side, and for an operator who only ever presses `s` that they are right
exactly then.
-/
import AutoMag.Client.Leds

set_option autoImplicit false

namespace AutoMag.Client

open AutoMag.CMemory AutoMag.Libtelnet AutoMag.Machine

/-! ## The device -/

/-- LED1 and LED2, on or off. -/
structure Leds where
  led1 : Bool
  led2 : Bool
deriving DecidableEq, Repr

/-- Both off. -/
def Leds.off : Leds := ⟨false, false⟩

/-- A line without the blanks and line ends before it and the line end after
it. -/
def command_line (text : List UInt8) : List UInt8 :=
  (text.dropWhile fun b => b = CR ∨ b = LF ∨ b = chr ' ').takeWhile fun b => b ≠ CR ∧ b ≠ LF

/-- The device takes a text: one of the four GPLED commands, or nothing to
it. -/
def Leds.obey (l : Leds) (text : List UInt8) : Leds :=
  let line := command_line text
  if line = ascii "GPLED LED1 SET" then { l with led1 := true }
  else if line = ascii "GPLED LED1 CLEAR" then { l with led1 := false }
  else if line = ascii "GPLED LED2 SET" then { l with led2 := true }
  else if line = ascii "GPLED LED2 CLEAR" then { l with led2 := false }
  else l

/-- Every text handed to `_input`, by either branch. -/
def handed (tr : List Act) : List (List UInt8) :=
  tr.flatMap fun | .input _ text _ => [text] | _ => []

@[simp] theorem handed_append (as bs : List Act) :
    handed (as ++ bs) = handed as ++ handed bs := List.flatMap_append ..

/-- The LEDs after all of them. -/
def leds (tr : List Act) : Leds := (handed tr).foldl Leds.obey .off

/-- The device obeys the commands in the order they are handed to `_input`. -/
theorem leds_append (as bs : List Act) :
    leds (as ++ bs) = (handed bs).foldl Leds.obey (leds as) := by
  rw [leds, handed_append, List.foldl_append, leds]

/-- The LEDs as the side of a message wants them. -/
def Leds.at : Option Led → Leds
  | none => .off
  | some .one => ⟨true, false⟩
  | some .two => ⟨false, true⟩

/-- A text is handed over once, whoever sends it. -/
theorem handed_input_acts (who : Origin) (e : Bool) (text : List UInt8) :
    handed (input_acts who e text) = [text] :=
  view_call (fun _ => rfl) (fun _ => rfl) (fun _ => rfl) text

theorem handed_texts (who : Origin) (e : Bool) (texts : List String) :
    handed (texts.flatMap fun t => input_acts who e (ascii t)) = texts.map ascii := by
  rw [List.map_eq_flatMap]
  exact view_texts (handed_input_acts who e) texts

theorem handed_ofRecv {acts : List Act} (h : ∀ a ∈ acts, a.ofRecv) : handed acts = [] :=
  view_blind (fun a ha => by cases a <;> first | rfl | cases ha) h

/-- A pair of commands sets both LEDs, whatever they were. -/
theorem obey_pair (l : Leds) (side : Led) :
    ((pair_texts side).map ascii).foldl Leds.obey l = .at (some side) := by
  obtain ⟨a, b⟩ := l
  -- one evaluation for each side, so that the texts are taken apart once
  have hone : ∀ a b, ((pair_texts .one).map ascii).foldl Leds.obey ⟨a, b⟩ = .at (some .one) := by
    decide +kernel
  have htwo : ∀ a b, ((pair_texts .two).map ascii).foldl Leds.obey ⟨a, b⟩ = .at (some .two) := by
    decide +kernel
  cases side with
  | one => exact hone a b
  | two => exact htwo a b

/-- The CAN setup turns both off, and the program keeps no note of that. -/
theorem obey_setup (l : Leds) (e : Bool) :
    (handed (setup_acts e)).foldl Leds.obey l = .off := by
  have hh : handed (setup_acts e) = setup_texts.map ascii ++ [[chr 's']] := by
    rw [setup_acts, handed_append, handed_append, handed_texts, handed_input_acts]
    rfl
  obtain ⟨a, b⟩ := l
  -- the two CLEAR commands are among the seven texts
  have hoff : ∀ a b, (setup_texts.map ascii ++ [[chr 's']]).foldl Leds.obey ⟨a, b⟩ = .off := by
    decide +kernel
  rw [hh]
  exact hoff a b

/-! ## What happened when -/

/-- The two kinds of moments that matter: something was read from stdin, a
message was shown. -/
inductive Moment where
  | typed
  | shown (speed : ℕ)
deriving DecidableEq, Repr

/-- The moments of a trace, in order. -/
def history (tr : List Act) : List Moment :=
  tr.flatMap fun | .read (.data _) => [.typed] | .lcdScreen r => [.shown r.speed] | _ => []

@[simp] theorem history_append (as bs : List Act) :
    history (as ++ bs) = history as ++ history bs := List.flatMap_append ..

/-- The side of the last message. -/
def last_led (h : List Moment) : Option Led :=
  h.foldl (fun last m => match m with | .typed => last | .shown v => some (side v)) none

theorem last_led_typed (h : List Moment) : last_led (h ++ [.typed]) = last_led h := by
  simp [last_led]

theorem last_led_shown (h : List Moment) (v : ℕ) : last_led (h ++ [.shown v]) = some (side v) := by
  simp [last_led]

/-- The LED of the last message is the side of the last reading shown. -/
theorem last_led_history (tr : List Act) : last_led (history tr) = last_side none (shown tr) := by
  unfold last_led last_side
  -- both are folds over the same messages, from any side before the first
  generalize (none : Option Led) = last
  induction tr generalizing last with
  | nil => rfl
  | cons a tr ih =>
      cases a with
      | read r => cases r <;> exact ih last
      | lcdScreen r => exact ih (some (side r.speed))
      | _ => exact ih last

theorem history_ofRecv {acts : List Act} (h : ∀ a ∈ acts, a.ofRecv) : history acts = [] :=
  view_blind (fun a ha => by cases a <;> first | rfl | cases ha) h

/-- All moments of the stdin branch are of its kind. -/
theorem history_ofStdin {acts : List Act} (h : ∀ a ∈ acts, a.ofStdin) :
    ∀ m ∈ history acts, m = .typed := by
  intro m hm
  obtain ⟨a, ha, hm⟩ := List.mem_flatMap.mp hm
  have hof := h a ha
  cases a with
  | read r => cases r <;> simp_all
  | lcdScreen r => cases hof
  | _ => cases hm

theorem history_texts (who : Origin) (e : Bool) (texts : List String) :
    history (texts.flatMap fun t => input_acts who e (ascii t)) = [] := by
  apply view_eq_nil
  intro a ha
  obtain ⟨t, _, ha⟩ := List.mem_flatMap.mp ha
  rcases mem_input_acts ha with ⟨_, rfl⟩ | ⟨_, rfl⟩ | ⟨_, rfl⟩ | ⟨_, rfl⟩ <;> rfl

/-- No message comes right after a read with an earlier message on the same
side: where the side has not changed, nothing was typed since it was set. -/
def Undisturbed (h : List Moment) : Prop :=
  ∀ pre v, pre ++ [.typed] ++ [.shown v] <+: h → last_led pre ≠ some (side v)

theorem Undisturbed.of_prefix {h h' : List Moment} (hu : Undisturbed h') (hp : h <+: h') :
    Undisturbed h := fun pre v hpre => hu pre v (hpre.trans hp)

theorem undisturbed_typed {h : List Moment} : Undisturbed (h ++ [.typed]) ↔ Undisturbed h := by
  refine ⟨fun hu => hu.of_prefix (List.prefix_append ..), fun hu pre v hpre => ?_⟩
  rcases List.prefix_concat_iff.mp hpre with heq | hpre
  · -- the last moments differ
    have := (List.append_inj' heq rfl).2
    cases this
  · exact hu pre v hpre

/-- One message more: it is disturbed if something was typed since the last one
and its side is the side of that, for then no command is sent. -/
theorem undisturbed_shown {h : List Moment} {v : ℕ} :
    Undisturbed (h ++ [.shown v])
      ↔ Undisturbed h ∧ (h.getLast? = some .typed → last_led h ≠ some (side v)) := by
  constructor
  · intro hu
    refine ⟨hu.of_prefix (List.prefix_append ..), fun hlast => ?_⟩
    obtain ⟨pre, rfl⟩ := List.getLast?_eq_some_iff.mp hlast
    rw [last_led_typed]
    exact hu pre v List.prefix_rfl
  · rintro ⟨hu, hlast⟩ pre w hpre
    rcases List.prefix_concat_iff.mp hpre with heq | hpre
    · obtain ⟨rfl, hw⟩ := List.append_inj' heq rfl
      cases hw
      have h := hlast (List.getLast?_concat ..)
      rwa [last_led_typed] at h
    · exact hu pre w hpre

theorem undisturbed_append {h ms : List Moment} (hms : ∀ m ∈ ms, m = .typed) :
    Undisturbed (h ++ ms) ↔ Undisturbed h := by
  induction ms using List.reverseRecOn with
  | nil => rw [List.append_nil]
  | append_singleton ms m ih =>
      have hm : m = .typed := hms m (by simp)
      rw [hm, ← List.append_assoc, undisturbed_typed, ih fun m hm => hms m (by simp [hm])]

/-! ## The LEDs in every run -/

/-- A pass that reads something types; any other does not touch the LEDs. -/
theorem StdinStep.notes {term : List UInt8} {s s' : Main} (h : StdinStep term s s') :
    ∃ acts, s'.session.trace = s.session.trace ++ acts ∧ (∀ a ∈ acts, a.ofStdin)
      ∧ ((history acts).getLast? = some .typed ∨ (history acts = [] ∧ handed acts = [])) := by
  cases h with
  | idle => exact ⟨[], by simp, by simp, Or.inr ⟨rfl, rfl⟩⟩
  | failed => exact ⟨[.telnet_free, .close], rfl, by simp [Act.ofStdin], Or.inr ⟨rfl, rfl⟩⟩
  | @branch r q past hs hq =>
      cases r with
      | data c =>
          have hbranch : stdin_branch term past s
              = typed term past ((s.after_read (.data c) q).setRs 1) := by
            unfold stdin_branch
            rw [Main.read_cons hq]
          obtain ⟨acts, htr, hof⟩ := (typed_frame term past
            ((s.after_read (.data c) q).setRs 1) hs).session.trace
          refine ⟨.read (.data c) :: acts, ?_, ?_, Or.inl ?_⟩
          · rw [hbranch, htr]
            simp
          · intro a ha
            rcases List.mem_cons.mp ha with rfl | ha
            · rfl
            · exact hof a ha
          · change (Moment.typed :: history acts).getLast? = some .typed
            -- whatever else the branch reads, its last moment is a read
            rw [List.getLast?_cons]
            rcases hlast : (history acts).getLast? with _ | m
            · rfl
            · rw [history_ofStdin hof m (List.mem_of_getLast? hlast)]
              rfl
      | eof =>
          refine ⟨[.read .eof, .telnet_free, .close], ?_, by simp [Act.ofStdin],
            Or.inr ⟨rfl, rfl⟩⟩
          rw [stdin_branch_end term past hq (by simp)]
          simp [Main.leave, Main.halt]
      | error errno =>
          refine ⟨[.read (.error errno), .telnet_free, .close], ?_, by simp [Act.ofStdin],
            Or.inr ⟨rfl, rfl⟩⟩
          rw [stdin_branch_end term past hq (by simp)]
          simp [Main.leave, Main.halt]

/-- While no message has been disturbed, the LEDs are where the last message
wants them until something is typed. -/
structure PanelInv (s : Main) : Prop extends LedInv s where
  panel : Undisturbed (history s.session.trace) →
    (history s.session.trace).getLast? ≠ some .typed →
    leds s.session.trace = .at (last_led (history s.session.trace))

/-- Acts with no moment in them and nothing handed over. -/
theorem PanelInv.of_silent {s s' : Main} (h : PanelInv s) (hled : LedInv s') {acts : List Act}
    (htr : s'.session.trace = s.session.trace ++ acts) (hhist : history acts = [])
    (hhanded : handed acts = []) : PanelInv s' := by
  refine ⟨hled, ?_⟩
  rw [htr, history_append, hhist, List.append_nil, leds_append, hhanded]
  exact h.panel

theorem PanelInv.stdin {term : List UInt8} {s s' : Main} (h : PanelInv s)
    (hstep : StdinStep term s s') : PanelInv s' := by
  obtain ⟨acts, htr, hof, hacts⟩ := hstep.notes
  have hled : LedInv s' := h.toLedInv.stdin hstep
  rcases hacts with hlast | ⟨hhist, hhanded⟩
  · -- the last moment is now a read
    refine ⟨hled, fun _ hne => absurd ?_ hne⟩
    rw [htr, history_append, List.getLast?_append, hlast]
    rfl
  · exact h.of_silent hled htr hhist hhanded

theorem PanelInv.recv {s s' : Main} (h : PanelInv s) {term : List UInt8} {x y : List UInt8}
    (hframe : RecvFrame term s s' x y) : PanelInv s' := by
  obtain ⟨acts, htr, hof, _⟩ := hframe.trace
  exact h.of_silent (h.toLedInv.recv hframe) htr (history_ofRecv hof) (handed_ofRecv hof)

/-- What showing a message adds to the history and does to the LEDs: both are
set if the side is new, and stay as they are otherwise. -/
theorem LedInv.show_effect {s : Main} (h : LedInv s) (term : List UInt8)
    (hs : s.session.status = .running) (hid : id_matches s.dataBuffer.bytes) :
    history (show_message term s).session.trace
        = history s.session.trace ++ [.shown (reading s.dataBuffer.bytes).speed]
      ∧ leds (show_message term s).session.trace
        = if last_led (history s.session.trace) = some (side (reading s.dataBuffer.bytes).speed)
          then leds s.session.trace
          else .at (some (side (reading s.dataBuffer.bytes).speed)) := by
  rw [show_message_pos term s _ hs h.flags hid, last_led_history]
  simp only [Main.setLeds_session, Main.log_session, Session.log_trace]
  generalize reading s.dataBuffer.bytes = r
  generalize last_side none (shown s.session.trace) = last
  constructor
  · rw [history_append]
    congr 1
    change [Moment.shown r.speed] ++ history (led_acts _ _ _) = _
    rw [led_acts, history_texts, List.append_nil]
  · rw [leds_append]
    change (handed (led_acts _ _ _)).foldl Leds.obey _ = _
    rw [led_acts, handed_texts]
    -- a pair goes out exactly when the side is another one
    split
    · rfl
    · exact obey_pair _ _

/-- A message keeps the invariant: as long as none is disturbed, the device's
LEDs are at the side of the last one. -/
theorem PanelInv.show {s : Main} (h : PanelInv s) (term : List UInt8)
    (hs : s.session.status = .running) : PanelInv (show_message term s) := by
  by_cases hid : id_matches s.dataBuffer.bytes
  · obtain ⟨hhist, hleds⟩ := h.show_effect term hs hid
    refine ⟨h.toLedInv.show term hs, fun hu _ => ?_⟩
    rw [hhist] at hu ⊢
    rw [hleds, last_led_shown]
    obtain ⟨hu, hlast⟩ := undisturbed_shown.mp hu
    split
    · next hside =>
        -- no pair is sent: the LEDs are still those of the message before
        rw [h.panel hu (fun hty => hlast hty hside), hside]
    · rfl
  · rw [show_message_neg term s hid]
    exact h

theorem panel_inv_step (term : List UInt8) (s : Main) (p : Poll) (h : PanelInv s) :
    PanelInv (iteration term s p) :=
  iteration_invariant term (fun _ _ hstep h => h.stdin hstep)
    (fun _ _ _ _ hframe h => h.recv hframe) (fun _ hs h => h.show term hs) s p h

theorem panel_inv_start (b r d : CArray 512) (stdin : List Result) (scanfs : List (Option Int32))
    (socket : List Result) : PanelInv (Main.start b r d stdin scanfs socket) :=
  ⟨led_inv_start b r d stdin scanfs socket, fun _ _ => rfl⟩

/-- If this pass shows a message, then after it LED1 is on iff the speed is at
most 60 and LED2 iff it is more. -/
def LedsRight (term : List UInt8) (s : Main) (p : Poll) : Prop :=
  ∀ r, shown (iteration term s p).session.trace = shown s.session.trace ++ [r] →
    (leds (iteration term s p).session.trace).led1 = decide (r.speed ≤ 60)
      ∧ (leds (iteration term s p).session.trace).led2 = decide (60 < r.speed)

/-- The two LEDs at a side are the two comparisons with 60. -/
theorem leds_at_side (v : ℕ) :
    (Leds.at (some (side v))).led1 = decide (v ≤ 60)
      ∧ (Leds.at (some (side v))).led2 = decide (60 < v) := by
  by_cases hv : v ≤ 60
  · simp [side, hv, Leds.at]
  · simp [side, hv, Leds.at]
    omega

theorem shown_before {term : List UInt8} {s s₁ s₂ : Main} (h₁ : StdinStep term s s₁)
    (h₂ : s₂ = s₁ ∨ ∃ x y, RecvFrame term s₁ s₂ x y) :
    shown s₂.session.trace = shown s.session.trace := by
  have hs₁ : shown s₁.session.trace = shown s.session.trace := by
    obtain ⟨acts, htr, hof⟩ := h₁.frame.session.trace
    rw [htr, shown_append, shown_ofStdin hof, List.append_nil]
  rcases h₂ with rfl | ⟨x, y, h₂⟩
  · exact hs₁
  · obtain ⟨acts, htr, hof, _⟩ := h₂.trace
    rw [htr, shown_append, shown_ofRecv hof, List.append_nil, hs₁]

/-- A pass after which no message has been disturbed leaves the LEDs right. A
message shown in it was undisturbed too. -/
theorem PanelInv.leds_right {term : List UInt8} {s : Main} {p : Poll} (h : PanelInv s)
    (hu : Undisturbed (history (iteration term s p).session.trace)) : LedsRight term s p := by
  have hI := panel_inv_step term s p h
  intro r hr
  obtain ⟨s₁, s₂, h₁, h₂, h₃⟩ := iteration_split term s p
  have hshown := shown_before h₁ h₂
  have hs₂ : PanelInv s₂ := by
    rcases h₂ with rfl | ⟨x, y, h₂⟩
    · exact h.stdin h₁
    · exact (h.stdin h₁).recv h₂
  rcases h₃ with hs' | ⟨hrun, hs'⟩
  · -- nothing was shown
    rw [hs', hshown] at hr
    simp at hr
  · by_cases hid : id_matches s₂.dataBuffer.bytes
    · obtain ⟨hhist, _⟩ := hs₂.show_effect term hrun hid
      have hlast : last_led (history (iteration term s p).session.trace) = some (side r.speed) := by
        rw [last_led_history, hr, last_side_append]
      -- the last moment of the pass is the message, so the invariant speaks of the LEDs now
      have hleds := hI.panel hu (by rw [hs', hhist]; simp)
      rw [hleds, hlast]
      exact leds_at_side r.speed
    · rw [hs', show_message_neg term s₂ hid, hshown] at hr
      simp at hr

/-! ## An operator who only presses `s` -/

/-- Everything typed is the CAN setup, so after it both LEDs are off. -/
structure SetupOnly (s : Main) : Prop where
  keys : ∀ c, .data c ∈ s.stdin → c.key = chr 's'
  off : (history s.session.trace).getLast? = some .typed → leds s.session.trace = .off

theorem SetupOnly.of_silent {s s' : Main} (h : SetupOnly s) (acts : List Act)
    (hstdin : s'.stdin ⊆ s.stdin) (htr : s'.session.trace = s.session.trace ++ acts)
    (hhist : history acts = []) (hhanded : handed acts = []) : SetupOnly s' := by
  refine ⟨fun c hc => h.keys c (hstdin hc), ?_⟩
  rw [htr, history_append, hhist, List.append_nil, leds_append, hhanded]
  exact h.off

theorem SetupOnly.stdin {term : List UInt8} {s s' : Main} (h : SetupOnly s)
    (hstep : StdinStep term s s') : SetupOnly s' := by
  -- a read that ends the loop
  have hleave : ∀ (r : Result) (q : List Result), s.stdin = r :: q → history [.read r] = [] →
      SetupOnly (((s.after_read r q).setRs 0).leave) := by
    intro r q hq hr
    refine h.of_silent [.read r, .telnet_free, .close] ?_ ?_ ?_ rfl
    · rw [hq]
      exact List.subset_cons_self r q
    · simp [Main.leave, Main.halt]
    · exact hr
  cases hstep with
  | idle => exact h
  | failed => exact h.of_silent [.telnet_free, .close] (fun _ h => h) rfl rfl rfl
  | @branch r q past hs hq =>
      cases r with
      | data c =>
          have hkey : c.key = chr 's' := h.keys c (by rw [hq]; exact List.mem_cons_self ..)
          rw [stdin_branch_setup term past hq hkey hs]
          refine ⟨fun c' hc' => h.keys c' (by rw [hq]; exact List.mem_cons_of_mem _ hc'), ?_⟩
          intro _
          simp only [Main.log_session, Session.log_trace]
          rw [leds_append, obey_setup]
      | eof =>
          rw [stdin_branch_end term past hq (by simp)]
          exact hleave _ q hq rfl
      | error errno =>
          rw [stdin_branch_end term past hq (by simp)]
          exact hleave _ q hq rfl

theorem SetupOnly.recv {s s' : Main} (h : SetupOnly s) {term : List UInt8} {x y : List UInt8}
    (hframe : RecvFrame term s s' x y) :
    SetupOnly s' := by
  obtain ⟨acts, htr, hof, _⟩ := hframe.trace
  exact h.of_silent acts (by rw [hframe.stdin]; exact fun _ h => h) htr (history_ofRecv hof)
    (handed_ofRecv hof)

theorem SetupOnly.show {s : Main} (h : SetupOnly s) (hI : LedInv s) (term : List UInt8)
    (hs : s.session.status = .running) : SetupOnly (show_message term s) := by
  by_cases hid : id_matches s.dataBuffer.bytes
  · obtain ⟨hhist, _⟩ := hI.show_effect term hs hid
    refine ⟨?_, ?_⟩
    · rw [show_message_pos term s _ hs hI.flags hid]
      exact h.keys
    · rw [hhist]
      simp
  · rw [show_message_neg term s hid]
    exact h

/-- With setups only, a message that a setup disturbs finds both LEDs off and
leaves them so: a pass that leaves them right disturbed nothing. -/
theorem SetupOnly.step {term : List UInt8} {s : Main} {p : Poll}
    (h : PanelInv s ∧ SetupOnly s ∧ Undisturbed (history s.session.trace))
    (hright : LedsRight term s p) :
    PanelInv (iteration term s p) ∧ SetupOnly (iteration term s p)
      ∧ Undisturbed (history (iteration term s p).session.trace) := by
  obtain ⟨hI, hk, hu⟩ := h
  obtain ⟨s₁, s₂, h₁, h₂, h₃⟩ := iteration_split term s p
  have hshown := shown_before h₁ h₂
  have hs₁ : PanelInv s₁ ∧ SetupOnly s₁ ∧ Undisturbed (history s₁.session.trace) := by
    obtain ⟨acts, htr, hof, _⟩ := h₁.notes
    refine ⟨hI.stdin h₁, hk.stdin h₁, ?_⟩
    rw [htr, history_append, undisturbed_append (history_ofStdin hof)]
    exact hu
  have hs₂ : PanelInv s₂ ∧ SetupOnly s₂ ∧ Undisturbed (history s₂.session.trace) := by
    rcases h₂ with rfl | ⟨x, y, h₂⟩
    · exact hs₁
    · obtain ⟨acts, htr, hof, _⟩ := h₂.trace
      refine ⟨hs₁.1.recv h₂, hs₁.2.1.recv h₂, ?_⟩
      rw [htr, history_append, history_ofRecv hof, List.append_nil]
      exact hs₁.2.2
  refine ⟨panel_inv_step term s p hI, ?_⟩
  rcases h₃ with hs' | ⟨hrun, hs'⟩
  · rw [hs']
    exact hs₂.2
  · obtain ⟨hI₂, hk₂, hu₂⟩ := hs₂
    refine ⟨by rw [hs']; exact hk₂.show hI₂.toLedInv term hrun, ?_⟩
    by_cases hid : id_matches s₂.dataBuffer.bytes
    · obtain ⟨hhist, hleds⟩ := hI₂.show_effect term hrun hid
      have hr := hright (reading s₂.dataBuffer.bytes) (by
        rw [hs', hI₂.shown_show term hrun hid, hshown])
      rw [hs', hleds] at hr
      rw [hs', hhist, undisturbed_shown]
      -- disturbed by a setup: both LEDs are off and no pair was sent, but one should be on
      refine ⟨hu₂, fun hty hside => ?_⟩
      rw [if_pos hside, hk₂.off hty] at hr
      simp only [Leds.off, Bool.false_eq, decide_eq_false_iff_not] at hr
      omega
    · rw [hs', show_message_neg term s₂ hid]
      exact hu₂

/-- **When the LEDs follow the speed.** In every run they are right after every
message as long as none is disturbed; and when all that is typed is the CAN
setup, they are right after every message only then. -/
theorem leds_follow_speed (term : List UInt8) (b r d : CArray 512) (stdin : List Result)
    (scanfs : List (Option Int32)) (socket : List Result) (polls : List Poll) :
    (Undisturbed (history
        (main_loop term (Main.start b r d stdin scanfs socket) polls).session.trace) →
      Along (iteration term) (LedsRight term) (Main.start b r d stdin scanfs socket) polls)
    ∧ ((∀ c, .data c ∈ stdin → c.key = chr 's') →
      Along (iteration term) (LedsRight term) (Main.start b r d stdin scanfs socket) polls →
      Undisturbed (history
        (main_loop term (Main.start b r d stdin scanfs socket) polls).session.trace)) := by
  have hstart := panel_inv_start b r d stdin scanfs socket
  constructor
  · refine along_of_run (iteration term)
      (P := fun s => Undisturbed (history s.session.trace)) (panel_inv_step term) ?_ ?_ hstart polls
    -- a history disturbed once stays so
    · intro s p hu
      obtain ⟨acts, htr⟩ := iteration_trace term s p
      rw [← htr, history_append] at hu
      exact hu.of_prefix (List.prefix_append ..)
    · intro s p hI hu
      exact hI.leds_right hu
  · intro hkeys hright
    have hinit : PanelInv (Main.start b r d stdin scanfs socket)
        ∧ SetupOnly (Main.start b r d stdin scanfs socket)
        ∧ Undisturbed (history (Main.start b r d stdin scanfs socket).session.trace) := by
      refine ⟨hstart, ⟨hkeys, by simp [Main.start, Session.start, history]⟩, ?_⟩
      intro pre v hpre
      simp [Main.start, Session.start, history] at hpre
    exact (run_invariant_along (iteration term)
      (I := fun s => PanelInv s ∧ SetupOnly s ∧ Undisturbed (history s.session.trace))
      (fun s p h hr => SetupOnly.step h hr) hinit polls hright).2.2

/-- `s` in a read of its own. -/
def pressed_s : Result := .data ⟨[chr 's'], by decide, by decide⟩

/-- A message, the CAN setup, the same message again: it is shown with both LEDs
off. -/
theorem leds_dark_after_setup :
    ¬ Along (iteration []) (LedsRight [])
      (Main.start (.fill 512 0) (.fill 512 0) (.fill 512 0) [pressed_s] [] (standing ++ standing))
      [.ready false true [] [], .ready true false [] [], .ready false true [] []] := by
  intro h
  have h3 := h.2.2.1 ⟨0, 0, 0⟩
  obtain ⟨hq, hs⟩ :
      (iteration [] (Main.start (.fill 512 0) (.fill 512 0) (.fill 512 0) [pressed_s] []
        (standing ++ standing)) (.ready false true [] [])).stdin = [pressed_s]
      ∧ (iteration [] (Main.start (.fill 512 0) (.fill 512 0) (.fill 512 0) [pressed_s] []
        (standing ++ standing)) (.ready false true [] [])).session.status = .running := by
    decide +kernel
  rw [iteration_setup [] [] [] hq rfl hs] at h3
  revert h3
  decide +kernel

/-- Setup before the first message disturbs nothing, as that message is at a new
side. -/
theorem leds_follow_speed_setup_first :
    (∀ c, .data c ∈ [pressed_s] → c.key = chr 's')
    ∧ Along (iteration []) (LedsRight [])
      (Main.start (.fill 512 0) (.fill 512 0) (.fill 512 0) [pressed_s] [] standing)
      [.ready true false [] [], .ready false true [] []]
    ∧ Undisturbed (history (main_loop []
      (Main.start (.fill 512 0) (.fill 512 0) (.fill 512 0) [pressed_s] [] standing)
      [.ready true false [] [], .ready false true [] []]).session.trace) := by
  have hkeys : ∀ c, .data c ∈ [pressed_s] → c.key = chr 's' := by
    intro c hc
    cases List.mem_singleton.mp hc
    rfl
  have hfollow := leds_follow_speed [] (.fill 512 0) (.fill 512 0) (.fill 512 0) [pressed_s] []
    standing [.ready true false [] [], .ready false true [] []]
  have hhist : history (main_loop []
      (Main.start (.fill 512 0) (.fill 512 0) (.fill 512 0) [pressed_s] [] standing)
      [.ready true false [] [], .ready false true [] []]).session.trace
      = [.typed, .shown 0] := by
    rw [main_loop, run_cons, iteration_setup (q := []) [] [] [] rfl rfl rfl]
    decide +kernel
  have hright := hfollow.1 (by
    rw [hhist]
    refine undisturbed_shown (h := [.typed]).mpr ⟨?_, fun _ => by decide⟩
    exact undisturbed_typed (h := []).mpr fun pre v hpre => by simp at hpre)
  exact ⟨hkeys, hright, hfollow.2 hkeys hright⟩

end AutoMag.Client
