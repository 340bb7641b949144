/-
`Client/Failures.lean` -- what becomes of a `read` or `recv` that fails or finds the end.

`Handled` is what is asked for: an error is reported and the process exits with 1, an
end of file closes down in order and returns 0, and nothing is noted behind either. The
first `recv` of a pass is handled so, and so is the end of stdin at the menu; nothing
else is. An error at the menu is taken for an end (the assignment in the condition is
of the comparison), the submenu tests nothing, and the two inner `recv`s have no `else`.
`Checked` is the exact condition, on the results a pass is going to get.
-/
import AutoMag.Client.Keys

set_option autoImplicit false

namespace AutoMag.Client

open AutoMag.CMemory AutoMag.Libtelnet AutoMag.Machine

/-! ## What is asked for -/

/-- The result a `read` or a `recv` got. -/
def Act.result : Act → Option Result
  | .read r => some r
  | .recv r => some r
  | _ => none

/-- A positive count. -/
def Result.isData : Result → Bool
  | .data _ => true
  | _ => false

/-- What is to follow a result, to the end of the trace, and how the process is
to end. -/
def Ended (acts : List Act) (status : Status) : Result → Prop
  | .data _ => True
  | .eof => acts = [.telnet_free, .close] ∧ status = .exited 0
  | .error _ => (∃ text, acts = [.fprintf text]) ∧ status = .exited 1

/-- Every result in the list is followed by what is to follow it. -/
def Handled (status : Status) : List Act → Prop
  | [] => True
  | a :: acts => (∀ r, a.result = some r → Ended acts status r) ∧ Handled status acts

/-- No result other than data. -/
def AllData (acts : List Act) : Prop := ∀ a ∈ acts, ∀ r, a.result = some r → r.isData

/-- No result at all. -/
def Silent (acts : List Act) : Prop := ∀ a ∈ acts, a.result = none

theorem Silent.allData {acts : List Act} (h : Silent acts) : AllData acts := by
  intro a ha r hr
  rw [h a ha] at hr
  cases hr

theorem AllData.append {as bs : List Act} (h : AllData as) (h' : AllData bs) :
    AllData (as ++ bs) := by
  intro a ha
  rcases List.mem_append.mp ha with ha | ha
  · exact h a ha
  · exact h' a ha

theorem AllData.cons {a : Act} {acts : List Act} (ha : ∀ r, a.result = some r → r.isData)
    (h : AllData acts) : AllData (a :: acts) := by
  intro b hb
  rcases List.mem_cons.mp hb with rfl | hb
  · exact ha
  · exact h b hb

theorem Silent.append {as bs : List Act} (h : Silent as) (h' : Silent bs) : Silent (as ++ bs) := by
  intro a ha
  rcases List.mem_append.mp ha with ha | ha
  · exact h a ha
  · exact h' a ha

/-- Data asks for nothing, so data in front makes no difference. -/
theorem handled_append {status : Status} {as bs : List Act} (h : AllData as) :
    Handled status (as ++ bs) ↔ Handled status bs := by
  induction as with
  | nil => exact Iff.rfl
  | cons a as ih =>
      have ha : ∀ r, a.result = some r → Ended (as ++ bs) status r := by
        intro r hr
        have hdata := h a (List.mem_cons_self ..) r hr
        cases r with
        | data c => exact trivial
        | _ => cases hdata
      rw [List.cons_append, Handled, ih fun b hb => h b (List.mem_cons_of_mem _ hb)]
      exact ⟨fun h => h.2, fun h => ⟨ha, h⟩⟩

theorem AllData.handled {status : Status} {acts : List Act} (h : AllData acts) :
    Handled status acts := by
  have happend : Handled status (acts ++ []) := (handled_append h).mpr trivial
  rwa [List.append_nil] at happend

/-- While the process runs, what has been handled was data: every other result
would have ended it. -/
theorem Handled.allData {acts : List Act} (h : Handled .running acts) : AllData acts := by
  induction acts with
  | nil => nofun
  | cons a acts ih =>
      apply AllData.cons _ (ih h.2)
      intro r hr
      have hend := h.1 r hr
      cases r with
      | data c => rfl
      | eof => cases hend.2
      | error errno => cases hend.2

/-- A failure the program goes on from: something is printed behind it. -/
def Missed (acts : List Act) : Prop :=
  ∃ pre r text post, r.isData = false ∧ acts = pre ++ .read r :: .printf text :: post

theorem Missed.append {as : List Act} (h : Missed as) (bs : List Act) : Missed (as ++ bs) := by
  obtain ⟨pre, r, text, post, hr, rfl⟩ := h
  exact ⟨pre, r, text, post ++ bs, hr, by simp⟩

/-- It is not handled, whatever comes later. So a failure that is passed over
once makes the run fail. -/
theorem Missed.not_handled {status : Status} {acts : List Act} (h : Missed acts) :
    ¬ Handled status acts := by
  obtain ⟨pre, r, text, post, hr, rfl⟩ := h
  induction pre with
  | nil =>
      intro h
      have hend := h.1 r rfl
      cases r with
      | data c => cases hr
      | eof => cases hend.1
      | error errno =>
          obtain ⟨text', htext⟩ := hend.1
          cases htext
  | cons a pre ih =>
      intro h
      exact ih h.2

/-! ## The condition -/

/-- At the menu: not an error, and no failure inside the submenu. -/
def menu_checked : List Result → Prop
  | .error _ :: _ => False
  | .data c :: r :: _ => c.key = chr 'l' → r.isData
  | _ => True

/-- At the socket: when the search over the first result hits, the next two
results, as far as there are any, are data. -/
def parts_checked (recieveBuffer : CArray 512) (past : List UInt8) : List Result → Prop
  | .data c :: q =>
      strstr checkMsg ((recieveBuffer.write 0 c.bytes).bytes ++ past) ≠ none →
        ∀ r ∈ q.take 2, r.isData
  | _ => True

/-- The results of a pass that the program can cope with. -/
def Checked (s : Main) : Poll → Prop
  | .failed => True
  | .ready stdin sock pastBuffer past =>
      s.session.status = .running →
        (stdin → menu_checked s.stdin)
          ∧ (s.comes_to_socket (.ready stdin sock pastBuffer past) →
            parts_checked s.recieveBuffer past s.socket)

/-! ## The stdin branch -/

theorem silent_input (who : Origin) (e : Bool) (text : List UInt8) :
    Silent (input_acts who e text) := by
  intro a ha
  rcases mem_input_acts ha with ⟨_, rfl⟩ | ⟨_, rfl⟩ | ⟨_, rfl⟩ | ⟨_, rfl⟩ <;> rfl

theorem silent_prompts (texts : List String) :
    Silent (texts.map fun text => .printf (ascii text)) := by
  intro a ha
  obtain ⟨text, _, rfl⟩ := List.mem_map.mp ha
  rfl

theorem silent_key (e : Bool) (key : UInt8) : Silent (key_acts e key) := by
  unfold key_acts
  split
  · exact (silent_input _ _ _).append (silent_input _ _ _)
  split
  · apply Silent.append _ (silent_input _ _ _)
    apply (silent_prompts _).append
    intro a ha
    obtain ⟨t, _, ha⟩ := List.mem_flatMap.mp ha
    exact silent_input _ _ _ a ha
  · apply Silent.append _ (silent_input _ _ _)
    apply ((silent_prompts _).append (silent_input _ _ _)).append
    simp [Silent, Act.result]

theorem LinCase.silent {s s' : Main} (h : LinCase s s') :
    ∃ acts, s'.session.trace = s.session.trace ++ acts ∧ Silent acts := by
  cases h with
  | wait => exact ⟨_, rfl, by simp [Silent, Act.result]⟩
  | opened =>
      refine ⟨_, rfl, ?_⟩
      -- the question and the answer come before the command
      intro a ha
      rcases List.mem_cons.mp ha with rfl | ha
      · rfl
      rcases List.mem_cons.mp ha with rfl | ha
      · rfl
      exact silent_input _ _ _ a ha
  | close => exact ⟨_, rfl, silent_input _ _ _⟩
  | other => exact ⟨_, rfl, by simp [Silent, Act.result]⟩

/-- The trailing `_input`, with what a result counts as its size, makes no
system call that could fail. -/
theorem finish_silent (term : List UInt8) (s : Main) (r : Result) (hrs : s.rs = r.count) :
    ∃ acts, (s.finish term).session.trace = s.session.trace ++ acts ∧ Silent acts := by
  by_cases hrun : s.session.status = .running
  · cases r with
    | data d =>
        rw [finish_count hrun hrs d.le]
        exact ⟨_, rfl, silent_input _ _ _⟩
    | eof =>
        rw [finish_count (n := 0) hrun hrs (by omega)]
        exact ⟨_, rfl, silent_input _ _ _⟩
    | error errno =>
        rw [finish_error hrun hrs]
        refine ⟨_, rfl, ?_⟩
        intro a ha
        rcases List.mem_cons.mp ha with rfl | ha
        · rfl
        · rcases mem_chars_acts ha with ⟨_, rfl⟩ | ⟨_, rfl⟩ | ⟨_, rfl⟩ <;> rfl
  · rw [finish_stopped hrun]
    exact ⟨[], (List.append_nil _).symm, nofun⟩

/-- The submenu notes no result behind its own. -/
theorem submenu_trace (term : List UInt8) (s : Main) (c : Chunk) (r : Result) (q : List Result)
    (hs : s.session.status = .running) :
    ∃ acts, ((lin_choice term (s.at_submenu c r q)).finish term).session.trace
        = s.session.trace ++ (.read (.data c) :: menu_prompts ++ lin_prompts) ++ .read r :: acts
      ∧ Silent acts := by
  have hat := Main.at_submenu_running hs c r q
  have hcase := lin_choice_case term (s.at_submenu c r q) hat
  generalize lin_choice term (s.at_submenu c r q) = s' at hcase
  obtain ⟨as, has, hsilent⟩ := hcase.silent
  obtain ⟨bs, hbs, hsilent'⟩ := finish_silent term s' r hcase.frame.1
  refine ⟨as ++ bs, ?_, hsilent.append hsilent'⟩
  rw [hbs, has, Main.at_submenu_session]
  simp

/-- When its read brought no data, it complains about the `l` and goes on. -/
theorem submenu_missed (term : List UInt8) (s : Main) (c : Chunk) (hkey : c.key = chr 'l')
    (r : Result) (hr : r.isData = false) (q : List Result) (hs : s.session.status = .running) :
    Missed ((lin_choice term (s.at_submenu c r q)).finish term).session.trace := by
  have hbytes : r.bytes = [] := by
    cases r with
    | data d => cases hr
    | eof => rfl
    | error errno => rfl
  have hat := Main.at_submenu_running hs c r q
  have hhead := at_submenu_none s c hkey hbytes q
  have hcase := lin_choice_case term (s.at_submenu c r q) hat
  generalize lin_choice term (s.at_submenu c r q) = s' at hcase
  obtain ⟨acts, hacts, _⟩ := finish_silent term s' r hcase.frame.1
  rw [hacts]
  apply Missed.append
  cases hcase with
  | @wait m hmode => rw [hhead] at hmode; cases m <;> cases hmode
  | @opened m _ _ hmode => rw [hhead] at hmode; cases m <;> cases hmode
  | close hclose => rw [hhead] at hclose; cases hclose
  | other =>
      refine ⟨s.session.trace ++ (.read (.data c) :: menu_prompts ++ lin_prompts), r,
        ascii "There is no option for " ++ [(s.at_submenu c r q).buffer.bytes.headD 0, LF], [], hr,
          ?_⟩
      rw [Main.log_session, Session.log_trace, Main.at_submenu_session]
      simp

/-- An end of file with the clean-up behind it. -/
theorem leave_handled {a : Act} (ha : a.result = some .eof) :
    Handled (.exited 0) [a, .telnet_free, .close] := by
  refine ⟨?_, ?_, ?_, trivial⟩
  · intro r hr
    rw [ha] at hr
    cases hr
    exact ⟨rfl, rfl⟩
  · intro r hr
    cases hr
  · intro r hr
    cases hr

/-- A pass that notes one result, of data, is handled. -/
theorem AllData.read_data {tr : List Act} (h : AllData tr) {c : Chunk} {acts : List Act}
    {status : Status} (hacts : Silent acts) : Handled status (tr ++ .read (.data c) :: acts) := by
  apply AllData.handled
  apply h.append
  apply AllData.cons _ hacts.allData
  rintro r ⟨⟩
  rfl

/-- So is one with a second result, in the submenu. -/
theorem AllData.submenu {term : List UInt8} {s : Main} {c : Chunk} {r : Result} {q : List Result}
    (h : AllData s.session.trace) (hs : s.session.status = .running) (hr : r.isData) :
    Handled ((lin_choice term (s.at_submenu c r q)).finish term).session.status
      ((lin_choice term (s.at_submenu c r q)).finish term).session.trace := by
  obtain ⟨acts, htrace, hsilent⟩ := submenu_trace term s c r q hs
  have hprompts : Silent (menu_prompts ++ lin_prompts) :=
    (silent_prompts _).append (silent_prompts _)
  rw [htrace]
  apply AllData.handled
  apply (h.append (AllData.cons _ hprompts.allData)).append (AllData.cons _ hsilent.allData)
  · rintro r' ⟨⟩
    rfl
  · rintro r' ⟨⟩
    exact hr

/-- **The stdin branch**: handled when `menu_checked`, else not, and not made
good by what the rest of the pass does. -/
theorem StdinCase.handled {term : List UInt8} {s s₁ : Main} (h : StdinCase term s s₁)
    (hs : s.session.status = .running) (hall : AllData s.session.trace) :
    (menu_checked s.stdin ∧ Handled s₁.session.status s₁.session.trace)
      ∨ (¬ menu_checked s.stdin ∧ (Missed s₁.session.trace
        ∨ s₁.session.status ≠ .running ∧ ¬ Handled s₁.session.status s₁.session.trace)) := by
  cases h with
  | @ended r q hq hr =>
      rw [hq]
      have htrace : (((s.after_read r q).setRs 0).leave).session.trace
          = s.session.trace ++ [.read r, .telnet_free, .close] := by
        simp [Main.leave, Main.halt]
      have hstatus : (((s.after_read r q).setRs 0).leave).session.status = .exited 0 := rfl
      rw [htrace, hstatus, handled_append hall]
      cases r with
      | data c => exact absurd rfl (hr c)
      | eof =>
          exact Or.inl ⟨trivial, leave_handled rfl⟩
      | error errno =>
          -- the same as an end of file, so neither reported nor status 1
          refine Or.inr ⟨id, Or.inr ⟨Status.noConfusion, ?_⟩⟩
          intro h
          cases (h.1 _ rfl).2
  | @key c q hq hl hquit =>
      refine Or.inl ⟨?_, ?_⟩
      · rw [hq]
        cases q with
        | nil => exact trivial
        | cons r q => exact fun h => absurd h hl
      · simp only [Main.log_session, Main.setRs_session, Main.after_read_session,
          Session.log_log, Session.log_trace, List.singleton_append]
        exact hall.read_data (silent_key _ _)
  | @quit c q hq hkey =>
      refine Or.inl ⟨?_, ?_⟩
      · rw [hq]
        cases q with
        | nil => exact trivial
        | cons r q => exact fun h => by rw [hkey] at h; cases h
      · simp only [Main.halt, Main.log_session, Main.setRs_session, Main.after_read_session,
          Session.log_log, Session.log_trace, List.singleton_append]
        exact hall.read_data (silent_prompts _)
  | wait hq hkey =>
      refine Or.inl ⟨by rw [hq]; exact trivial, ?_⟩
      simp only [Main.halt, Main.log_session, Main.setRs_session, Main.after_read_session,
        Session.log_log, Session.log_trace, List.singleton_append]
      exact hall.read_data ((silent_prompts _).append (silent_prompts _))
  | @submenu c r q hq hkey =>
      have hchecked : menu_checked s.stdin ↔ r.isData := by
        rw [hq]
        exact ⟨fun h => h hkey, fun h _ => h⟩
      rw [hchecked]
      cases hr : r.isData with
      | false => exact Or.inr ⟨Bool.false_ne_true, Or.inl (submenu_missed term s c hkey r hr q hs)⟩
      | true => exact Or.inl ⟨rfl, hall.submenu hs hr⟩

/-! ## The socket branch -/

theorem silent_of_ofReply {acts : List Act} (h : ∀ a ∈ acts, a.ofReply) : Silent acts := by
  intro a ha
  have hof := h a ha
  cases a <;> first | rfl | cases hof

theorem silent_of_ofCan {acts : List Act} (h : ∀ a ∈ acts, a.ofCan) : Silent acts := by
  intro a ha
  have hof := h a ha
  cases a <;> first | rfl | cases hof

theorem AllData.recv_data {tr : List Act} (h : AllData tr) (d : Chunk) :
    AllData (tr ++ [.recv (.data d)]) := by
  apply h.append
  intro a ha
  rw [List.mem_singleton.mp ha]
  rintro r ⟨⟩
  rfl

/-- The first result is data and the replies to it bring none. -/
theorem AllData.first {term : List UInt8} {s : Main} {c : Chunk} (h : AllData s.session.trace)
    (hs : s.session.status = .running) (q : List Result) :
    AllData (s.first term c q).session.trace := by
  rw [s.first_trace term c q hs]
  apply h.append
  apply AllData.cons _ (silent_of_ofReply (recv_acts_ofReply term _ _)).allData
  rintro r ⟨⟩
  rfl

/-- A failed call whose result is the last act of the pass. -/
theorem AllData.not_handled_last {tr : List Act} {r : Result} {status : Status} (h : AllData tr)
    (hr : r.bytes = []) : ¬ Handled status (tr ++ [.recv r]) := by
  rw [handled_append h]
  rintro ⟨hend, _⟩
  have hend := hend r rfl
  cases r with
  | data d => exact d.nonempty hr
  | eof => cases hend.1
  | error errno =>
      obtain ⟨text, htext⟩ := hend.1
      cases htext

/-- When the search hits, one of the next two results that is no data is not
checked: the source copies from the array whatever `recv` returned. -/
theorem parts_not_checked {recieveBuffer : CArray 512} {past : List UInt8} {c : Chunk}
    {q : List Result} {ret : ℕ}
    (hret : strstr checkMsg ((recieveBuffer.write 0 c.bytes).bytes ++ past) = some ret) {r : Result}
    (hmem : r ∈ q.take 2) (hr : r.bytes = []) :
    ¬ parts_checked recieveBuffer past (.data c :: q) := by
  intro h
  have hhit : strstr checkMsg ((recieveBuffer.write 0 c.bytes).bytes ++ past) ≠ none := by
    rw [hret]
    exact Option.some_ne_none ret
  have hdata := h hhit r hmem
  cases r with
  | data d => exact d.nonempty hr
  | _ => cases hdata

/-- The branch from a first result that is data, by its outcomes. -/
theorem SocketStep.handled {term past : List UInt8} {s s' : Main} (h : SocketStep term past s s')
    (hs : s.session.status = .running) (hall : AllData s.session.trace) {c : Chunk}
    {q : List Result} (hq : s.socket = .data c :: q) :
    Handled s'.session.status s'.session.trace ↔ parts_checked s.recieveBuffer past s.socket := by
  cases h with
  | @closed r q' acts status hq' hr =>
      rw [hq'] at hq
      cases hq
      exact absurd hr c.nonempty
  | plain hq' hret =>
      rw [hq'] at hq ⊢
      cases hq
      exact iff_of_true (hall.first hs q).handled fun h => absurd hret h
  | wait_second hq' =>
      rw [hq'] at hq ⊢
      cases hq
      refine iff_of_true (hall.first hs []).handled ?_
      intro _ r hr
      cases hr
  | @no_second _ r q' ret hq' hr hret =>
      rw [hq'] at hq ⊢
      cases hq
      exact iff_of_false ((hall.first hs (r :: q')).not_handled_last hr)
        (parts_not_checked hret (by simp) hr)
  | @wait_third _ d ret hq' =>
      rw [hq'] at hq ⊢
      cases hq
      refine iff_of_true ((hall.first hs [.data d]).recv_data d).handled ?_
      intro _ r hr
      simp only [List.take_succ_cons, List.take_nil, List.mem_singleton] at hr
      rw [hr]
      rfl
  | @no_third _ d r q' ret hq' hr hret =>
      rw [hq'] at hq ⊢
      cases hq
      exact iff_of_false (((hall.first hs (.data d :: r :: q')).recv_data d).not_handled_last hr)
        (parts_not_checked hret (by simp) hr)
  | @message _ d e q' ret hq' =>
      rw [hq'] at hq ⊢
      cases hq
      have hrun : (s.complete term past c d e q' ret).session.status = .running :=
        client_recv_status term _ _ hs
      obtain ⟨acts, htrace, hof⟩ := (show_message_frame term _ hrun).trace
      have hparts : AllData (s.complete term past c d e q' ret).session.trace :=
        ((hall.first hs (.data d :: .data e :: q')).recv_data d).recv_data e
      rw [htrace]
      refine iff_of_true (hparts.append (silent_of_ofCan hof).allData).handled ?_
      intro _ r hr
      simp only [List.take_succ_cons, List.take_zero, List.mem_cons, List.not_mem_nil,
        or_false] at hr
      rcases hr with rfl | rfl <;> rfl

/-- **The socket branch**: handled when `parts_checked`, else not. The first
`recv` has its checks; the other two have none. -/
theorem socket_branch_handled (term past : List UInt8) (s : Main)
    (hs : s.session.status = .running) (hall : AllData s.session.trace) (hne : s.socket ≠ []) :
    Handled (socket_branch term past s).session.status (socket_branch term past s).session.trace
      ↔ parts_checked s.recieveBuffer past s.socket := by
  obtain ⟨r, q, hq⟩ := List.exists_cons_of_ne_nil hne
  cases r with
  | eof =>
      have htrace : (s.after_recv .eof q).leave.session.trace
          = s.session.trace ++ [.recv .eof, .telnet_free, .close] := by
        simp [Main.leave, Main.halt, Main.after_recv]
      have hstatus : (s.after_recv .eof q).leave.session.status = .exited 0 := rfl
      rw [socket_branch_eof term past hq, htrace, hstatus, handled_append hall, hq]
      exact iff_of_true (leave_handled rfl) trivial
  | error errno =>
      have htrace : ∀ text, ((s.after_recv (.error errno) q).fail text).session.trace
          = s.session.trace ++ [.recv (.error errno), .fprintf text] := by
        simp [Main.fail, Main.halt, Main.after_recv]
      have hstatus : ∀ text, ((s.after_recv (.error errno) q).fail text).session.status
          = .exited 1 := fun _ => rfl
      rw [socket_branch_error term past hq, htrace, hstatus, handled_append hall, hq]
      refine iff_of_true ⟨?_, ?_, trivial⟩ trivial
      · rintro r ⟨⟩
        exact ⟨⟨_, rfl⟩, rfl⟩
      · intro r hr
        cases hr
  | data c => exact (socket_branch_step term past s hs hne).handled hs hall hq

/-- The branch only adds to the trace. -/
theorem socket_branch_prefix (term past : List UInt8) (s : Main) (hs : s.session.status = .running)
    (hne : s.socket ≠ []) :
    ∃ acts, (socket_branch term past s).session.trace = s.session.trace ++ acts := by
  obtain ⟨s₂, x, y, hrecv, _, hs'⟩ := (socket_branch_step term past s hs hne).split hs
  obtain ⟨as, has, _⟩ := hrecv.trace
  rcases hs' with heq | ⟨hrun, _, heq⟩
  · rw [heq]
    exact ⟨as, has⟩
  · obtain ⟨bs, hbs, _⟩ := (show_message_frame term s₂ hrun).trace
    rw [heq, hbs, has, List.append_assoc]
    exact ⟨as ++ bs, rfl⟩

/-! ## A pass, and runs -/

/-- Where the pass comes to the socket: what the stdin branch has made of its
results. -/
theorem at_socket_handled (term pastBuffer : List UInt8) (stdin : Bool) {s : Main}
    (hs : s.session.status = .running) (hall : AllData s.session.trace) :
    ((stdin → menu_checked s.stdin)
        ∧ Handled (s.at_socket term pastBuffer stdin).session.status
          (s.at_socket term pastBuffer stdin).session.trace)
      ∨ (¬ (stdin → menu_checked s.stdin)
        ∧ (Missed (s.at_socket term pastBuffer stdin).session.trace
          ∨ (s.at_socket term pastBuffer stdin).session.status ≠ .running
            ∧ ¬ Handled (s.at_socket term pastBuffer stdin).session.status
              (s.at_socket term pastBuffer stdin).session.trace)) := by
  unfold Main.at_socket
  split
  · next h =>
      rcases (stdin_branch_case term pastBuffer s hs h.2).handled hs hall with hok | hno
      · exact Or.inl ⟨fun _ => hok.1, hok.2⟩
      · exact Or.inr ⟨fun hm => hno.1 (hm h.1), hno.2⟩
  · next h =>
      refine Or.inl ⟨?_, hall.handled⟩
      intro hready
      have hnil : s.stdin = [] := by
        by_contra hne
        exact h ⟨hready, hne⟩
      rw [hnil]
      exact trivial

/-- **One pass** handles its results if and only if they are such that it can.
The condition is on the results and the state before the pass. -/
theorem iteration_handled (term : List UInt8) (s : Main) (p : Poll)
    (hs : s.session.status = .running) (hall : AllData s.session.trace) :
    Handled (iteration term s p).session.status (iteration term s p).session.trace
      ↔ Checked s p := by
  cases p with
  | failed =>
      rw [iteration_failed term hs]
      refine iff_of_true ?_ trivial
      apply AllData.handled
      apply hall.append
      simp [AllData, Act.result]
  | ready stdin sock pastBuffer past =>
      have hchecked : Checked s (.ready stdin sock pastBuffer past)
          ↔ (stdin → menu_checked s.stdin)
            ∧ (s.comes_to_socket (.ready stdin sock pastBuffer past) →
              parts_checked s.recieveBuffer past s.socket) :=
        ⟨fun h => h hs, fun h _ => h⟩
      have hframe := s.at_socket_frame term pastBuffer stdin hs
      have hcomes := comes_to_socket_iff term pastBuffer past stdin sock s hs
      have hstdin := at_socket_handled term pastBuffer stdin hs hall
      rw [iteration_ready term pastBuffer past stdin sock s hs, hchecked, ← hcomes]
      generalize s.at_socket term pastBuffer stdin = s₁ at hframe hstdin
      split
      · next h =>
          have hrun := h.1
          have hne := h.2.2
          rcases hstdin with ⟨hmenu, hhandled⟩ | ⟨hmenu, hmissed | hstopped⟩
          · rw [hrun] at hhandled
            rw [socket_branch_handled term past s₁ hrun hhandled.allData hne, hframe.recieveBuffer,
              hframe.socket]
            exact ⟨fun hp => ⟨hmenu, fun _ => hp⟩,
              fun hp => hp.2 ⟨hrun, h.2.1, hframe.socket ▸ hne⟩⟩
          · -- the failure stays in the trace, with something printed behind it
            obtain ⟨acts, htrace⟩ := socket_branch_prefix term past s₁ hrun hne
            rw [htrace]
            exact iff_of_false (hmissed.append acts).not_handled fun hp => hmenu hp.1
          · exact absurd hrun hstopped.1
      · next h =>
          rcases hstdin with ⟨hmenu, hhandled⟩ | ⟨hmenu, hmissed | hstopped⟩
          · exact iff_of_true hhandled ⟨hmenu, fun hc => absurd hc h⟩
          · exact iff_of_false hmissed.not_handled fun hp => hmenu hp.1
          · exact iff_of_false hstopped.2 fun hp => hmenu hp.1

/-- **Runs**: after every pass of a run all failed and closed inputs have been
handled, if and only if every pass of it gets results it can cope with. -/
theorem failures_handled (term : List UInt8) (buffer recieveBuffer dataBuffer : CArray 512)
    (stdin : List Result) (scanfs : List (Option Int32)) (socket : List Result)
    (polls : List Poll) :
    Along (iteration term)
        (fun s p => Handled (iteration term s p).session.status (iteration term s p).session.trace)
        (.start buffer recieveBuffer dataBuffer stdin scanfs socket) polls
      ↔ Along (iteration term) Checked
        (.start buffer recieveBuffer dataBuffer stdin scanfs socket) polls := by
  -- the invariant: all handled so far, and so nothing but data while the process runs
  refine along_congr (iteration term)
    (I := fun s => Handled s.session.status s.session.trace) ?_ ?_ (by exact trivial) polls
  · intro s p hI
    by_cases hs : s.session.status = .running
    · rw [hs] at hI
      exact iteration_handled term s p hs hI.allData
    · rw [iteration_stopped term s p hs]
      refine iff_of_true hI ?_
      cases p with
      | failed => exact trivial
      | ready => exact fun hrun => absurd hrun hs
  · intro s p hI hC
    by_cases hs : s.session.status = .running
    · rw [hs] at hI
      exact (iteration_handled term s p hs hI.allData).mpr hC
    · rw [iteration_stopped term s p hs]
      exact hI

/-- A `read` of the menu that fails: the process closes down as at the end of
stdin, reports nothing and returns 0. -/
theorem menu_error_not_handled :
    ¬ Along (iteration [])
        (fun s p => Handled (iteration [] s p).session.status (iteration [] s p).session.trace)
        (.start (.fill 512 0) (.fill 512 0) (.fill 512 0) [.error "Input/output error"] [] [])
        [.ready true false [] []]
      ∧ (main_loop [] (.start (.fill 512 0) (.fill 512 0) (.fill 512 0)
          [.error "Input/output error"] [] []) [.ready true false [] []]).session.trace
        = [.read (.error "Input/output error"), .telnet_free, .close]
      ∧ (main_loop [] (.start (.fill 512 0) (.fill 512 0) (.fill 512 0)
          [.error "Input/output error"] [] []) [.ready true false [] []]).session.status
        = .exited 0 := by
  refine ⟨?_, rfl, rfl⟩
  rintro ⟨h, _⟩
  cases (h.1 _ rfl).2

end AutoMag.Client
