/-
`Client/Bypass.lean` -- bytes that never reach the telnet layer.

Once the marker is found the next two recv results go into `dataBuffer` and nowhere
else. For the telnet layer they are as good as received only if they could not have
moved it: it stands in the DATA state and they hold no IAC. A run in which that is
so whenever the marker is found shows what the plain client shows.
-/
import AutoMag.Client.Original

set_option autoImplicit false

namespace AutoMag.Client

open AutoMag.CMemory AutoMag.Libtelnet AutoMag.Machine

/-! ## Bytes that do not move the telnet layer -/

/-- Plain data leaves the tracker where it is and raises nothing but `DATA`. So
a byte that is kept back makes no difference, if it is of that kind. -/
theorem feed_plain {t : Telnet} (ht : t.state = .DATA) {bs : List UInt8}
    (hbs : TELNET_IAC ∉ bs) : feed byte_step t bs = (t, []) := by
  induction bs with
  | nil => rfl
  | cons b bs ih =>
      have hb : b ≠ TELNET_IAC := fun h => hbs (h ▸ List.mem_cons_self ..)
      have hstep : byte_step t b = (t, []) := by
        simp [byte_step, process_byte, ht, hb]
      rw [feed_cons, hstep, ih fun h => hbs (List.mem_cons_of_mem _ h)]
      rfl

/-- In this pass, if the marker is found then the telnet layer is in the DATA
state after the first result and there is no IAC in the two results after it. -/
def NothingWithheld (s : Main) : Poll → Prop
  | .ready _ true _ past => ∀ c q, s.socket = .data c :: q →
      strstr checkMsg ((s.recieveBuffer.write 0 c.bytes).bytes ++ past) ≠ none →
      (telnet_recv s.session.telnet c.bytes).1.state = .DATA
        ∧ ∀ r ∈ q.take 2, TELNET_IAC ∉ r.bytes
  | _ => True

/-! ## A pass -/

/-- Receiving, with what is kept back being plain data, from where the first
result has left the telnet layer. -/
theorem Fed.recv {term : List UInt8} {s s' : Main} {x y : List UInt8} (h : Fed term s.session)
    (hframe : RecvFrame term s s' x y)
    (hplain : y = [] ∨ ((telnet_recv s.session.telnet x).1.state = .DATA ∧ TELNET_IAC ∉ y)) :
    Fed term s'.session := by
  obtain ⟨acts, htr, _, hrecv, hsend⟩ := hframe.trace
  -- the bytes kept back change nothing
  have hfeed : feed byte_step s.session.telnet (x ++ y) = feed byte_step s.session.telnet x := by
    rcases hplain with rfl | ⟨hstate, hy⟩
    · rw [List.append_nil]
    · rw [telnet_recv_fst] at hstate
      rw [feed_append, feed_plain hstate hy, List.append_nil]
  have htr' : received s'.session.trace = received s.session.trace ++ (x ++ y) := by
    rw [htr, received_append, hrecv]
  refine ⟨?_, ?_, ?_⟩
  · rw [htr', feed_append, ← h.telnet, hfeed, hframe.telnet, telnet_recv_fst]
  · rw [htr', feed_append, ← h.telnet, hfeed, hframe.do_echo, List.foldl_append, ← h.do_echo,
      echo_control, telnet_recv_control, ← echo_control]
  · rw [htr', feed_append, ← h.telnet, hfeed, htr, replies_append, List.flatMap_append,
      ← h.replies, replies_filter acts, hsend, ← replies_filter, replies_recv_acts]

theorem Fed.show {term : List UInt8} {s : Main} (h : Fed term s.session)
    (hs : s.session.status = .running) : Fed term (show_message term s).session := by
  have hframe := show_message_frame term s hs
  obtain ⟨acts, htr, hof⟩ := hframe.trace
  apply h.of_silent hframe.telnet hframe.do_echo
  · rw [htr, received_append, received_ofCan hof, List.append_nil]
  · rw [htr, replies_append, replies_ofCan hof, List.append_nil]

/-- **A pass that withholds nothing keeps the session fed**, by the three parts
of a pass. -/
theorem iteration_fed (term : List UInt8) (s : Main) (p : Poll) (h : Fed term s.session)
    (hp : NothingWithheld s p) : Fed term (iteration term s p).session := by
  obtain ⟨s₁, h₁, hs' | ⟨stdin, pastBuffer, past, rfl, hrun, hstep⟩⟩ := iteration_cases term s p
  · rw [hs']
    exact h.session_frame h₁.frame.session
  · have hframe := h₁.frame
    have hfed₁ := h.session_frame hframe.session
    obtain ⟨s₂, x, y, hrecv, hskip, hs'⟩ := hstep.split hrun
    have hplain : y = [] ∨ ((telnet_recv s₁.session.telnet x).1.state = .DATA
        ∧ TELNET_IAC ∉ y) := by
      -- bytes are kept back only after a hit, and then they are those of the next two results
      rcases hskip with hy | ⟨c, q, ret, hq, rfl, hret, hpre⟩
      · exact Or.inl hy
      · have hsearch :
            strstr checkMsg ((s.recieveBuffer.write 0 c.bytes).bytes ++ past) ≠ none := by
          rw [← hframe.recieveBuffer]
          intro hnone
          exact absurd (hret.symm.trans hnone) (by simp)
        obtain ⟨hstate, hiac⟩ := hp c q (hframe.socket.symm.trans hq) hsearch
        refine Or.inr ⟨by rw [hframe.session.telnet]; exact hstate, fun hmem => ?_⟩
        obtain ⟨r, hr, hmem⟩ := List.mem_flatMap.mp (hpre.subset hmem)
        exact hiac r hr hmem
    have hfed₂ := hfed₁.recv hrecv hplain
    rcases hs' with hs' | ⟨hrun₂, _, hs'⟩
    · rw [hs']
      exact hfed₂
    · rw [hs']
      exact hfed₂.show hrun₂

/-! ## Whole runs -/

/-- The tracker, `do_echo` and the replies of a session. -/
def observe (c : Session) : Telnet × Bool × List (List UInt8) :=
  (c.telnet, c.do_echo, replies c.trace)

/-- **No byte bypasses the telnet layer** in a run that withholds nothing: in
every state it reaches, the tracker, `do_echo` and the replies are those of one
`telnet_recv` over everything received, and those of the plain client whenever
that has received the same. -/
theorem no_bypass (term : List UInt8) (b r d : CArray 512) (stdin : List Result)
    (scanfs : List (Option Int32)) (socket : List Result) (polls more : List Poll)
    (h : Along (iteration term) NothingWithheld (Main.start b r d stdin scanfs socket)
      (polls ++ more)) :
    observe (main_loop term (Main.start b r d stdin scanfs socket) polls).session
        = observe (client_recv term .start (received
          (main_loop term (Main.start b r d stdin scanfs socket) polls).session.trace))
      ∧ ∀ stdin' socket' polls',
        received (run (original_iteration term) (Original.start stdin' socket')
            polls').session.trace
          = received (main_loop term (Main.start b r d stdin scanfs socket) polls).session.trace →
        observe (run (original_iteration term) (Original.start stdin' socket') polls').session
          = observe (main_loop term (Main.start b r d stdin scanfs socket) polls).session := by
  have hfed : Fed term (main_loop term (Main.start b r d stdin scanfs socket) polls).session :=
    run_invariant_along (iteration term) (I := fun s => Fed term s.session) (iteration_fed term)
      (fed_start term) polls h.of_append
  obtain ⟨ht, he, hr⟩ := hfed.eq_client_recv
  have heq : observe (main_loop term (Main.start b r d stdin scanfs socket) polls).session
      = observe (client_recv term .start (received
        (main_loop term (Main.start b r d stdin scanfs socket) polls).session.trace)) :=
    Prod.ext ht (Prod.ext he hr)
  refine ⟨heq, fun stdin' socket' polls' hsame => ?_⟩
  -- the plain client shows the same function of the same bytes
  obtain ⟨ht', he', hr'⟩ := (original_fed term stdin' socket' polls').eq_client_recv
  rw [heq, ← hsame]
  exact Prod.ext ht' (Prod.ext he' hr')

/-- A first part with the marker, then a server that offers to echo, then eight
bytes. -/
def offer_withheld : List Result :=
  [.data opening, .data ⟨[TELNET_IAC, TELNET_WILL, TELNET_TELOPT_ECHO], by decide, by decide⟩,
    .data zeros]

/-- The offer is kept from the telnet layer: it goes unanswered and `do_echo`
stays on. -/
theorem offer_bypasses :
    observe (main_loop [] (Main.start (.fill 512 0) (.fill 512 0) (.fill 512 0) [] []
        offer_withheld) [.ready false true [] []]).session
      ≠ observe (client_recv [] .start (received (main_loop []
        (Main.start (.fill 512 0) (.fill 512 0) (.fill 512 0) [] [] offer_withheld)
        [.ready false true [] []]).session.trace)) := by
  have hecho : (observe (main_loop [] (Main.start (.fill 512 0) (.fill 512 0) (.fill 512 0) [] []
        offer_withheld) [.ready false true [] []]).session).2.1 = true := by decide +kernel
  have hrecv : received (main_loop []
        (Main.start (.fill 512 0) (.fill 512 0) (.fill 512 0) [] [] offer_withheld)
        [.ready false true [] []]).session.trace = offer_withheld.flatMap Result.bytes := by
    decide +kernel
  have hfed : (observe (client_recv [] .start (offer_withheld.flatMap Result.bytes))).2.1
      = false := by decide +kernel
  rw [hrecv]
  intro heq
  rw [heq, hfed] at hecho
  cases hecho

/-- A message of plain data bypasses nothing: two of its parts are kept back and
are not missed. -/
theorem no_bypass_standing :
    Along (iteration []) NothingWithheld
      (Main.start (.fill 512 0) (.fill 512 0) (.fill 512 0) [] [] standing)
      ([.ready false true [] []] ++ [])
    ∧ observe (main_loop [] (Main.start (.fill 512 0) (.fill 512 0) (.fill 512 0) [] []
        standing) [.ready false true [] []]).session
      = observe (client_recv [] .start (received (main_loop []
        (Main.start (.fill 512 0) (.fill 512 0) (.fill 512 0) [] [] standing)
        [.ready false true [] []]).session.trace)) := by
  have halong : Along (iteration []) NothingWithheld
      (Main.start (.fill 512 0) (.fill 512 0) (.fill 512 0) [] [] standing)
      ([.ready false true [] []] ++ []) := by
    refine ⟨fun c q hq _ => ?_, trivial⟩
    cases hq
    decide
  exact ⟨halong, (no_bypass [] _ _ _ _ _ _ _ [] halong).1⟩

end AutoMag.Client
