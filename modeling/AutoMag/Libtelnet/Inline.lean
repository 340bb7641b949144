/-
`Libtelnet/Inline.lean` -- the library with the application inside.

The library calls the event handler in the middle of `_process`. For a handler that leaves
the tracker alone that makes no difference (`Inert.telnet_recv`), and `telnet_recv` returns the
events in a list. Here is the loop for a handler that does not: it may ask for options while a
block is being taken apart. What it changes then is the option table, which the parser does not
look at, so the application still hears the data of the stream and nothing else
(`Simulates.telnet_recv`).
-/
import AutoMag.Lib.Fallible
import AutoMag.Libtelnet.Send

set_option autoImplicit false

namespace AutoMag.Libtelnet

open AutoMag.Fallible AutoMag.Machine

/-! ## 1. The loop -/

/-- A connection as the senders of the library see it: where the application
keeps the tracker, and `case TELNET_EV_SEND` of its event handler, which may end
the process. -/
structure Port (σ ε : Type) where
  telnet : σ → Telnet
  put : σ → Telnet → σ
  send : σ → List UInt8 → Except ε σ

/-- An application: a connection with the whole event handler. -/
structure App (σ ε : Type) extends Port σ ε where
  handle : σ → Event → Except ε σ

variable {σ ε : Type}

/-- The events of a sender, which are all `SEND`. -/
def Port.post (port : Port σ ε) (s : σ) (evs : List Event) : Except ε σ :=
  evs.foldlM (fun s ev => match ev with
    | .SEND bytes => port.send s bytes
    | _ => pure s) s

/-- `telnet_negotiate` on the connection's tracker. -/
def Port.negotiate (port : Port σ ε) (s : σ) (cmd telopt : UInt8) : Except ε σ :=
  let r := telnet_negotiate (port.telnet s) cmd telopt
  port.post (port.put s r.1) r.2

/-- The handler is called for each event. -/
def App.raise (app : App σ ε) (s : σ) (evs : List Event) : Except ε σ := evs.foldlM app.handle s

/-- The loop of `_process` with the calls of the handler in it. A byte has moved
the tracker on when its own events are raised; where the source raises `DATA`
first, what is left to do is to set `state`, which no handler writes. -/
def App.process_loop (app : App σ ε) (buffer : List UInt8) : List UInt8 → ℕ → ℕ → σ → Except ε σ
  | [], i, start, s =>
      app.raise s (if (app.telnet s).state = .DATA then data_event buffer start i else [])
  | byte :: rest, i, start, s => do
      -- pass through all pending bytes, before the byte is looked at
      let s ← app.raise s
        (if (process_byte (app.telnet s) byte).flush then data_event buffer start i else [])
      let p := process_byte (app.telnet s) byte
      let s ← app.raise (app.put s p.telnet) p.events
      if p.again then app.process_loop rest rest 0 0 s
      else app.process_loop buffer rest (i + 1) ((p.start.map (i + ·)).getD start) s

/-- `telnet_recv` without zlib. -/
def App.telnet_recv (app : App σ ε) (s : σ) (buffer : List UInt8) : Except ε σ :=
  app.process_loop buffer buffer 0 0 s

/-! ## 2. The senders -/

/-- What one write does, for any relation that says it of the bytes, a sender
does with all of its bytes. Both programs whose handler sends use it, each with
its own relation between the states before and after. -/
theorem Port.post_gives (port : Port σ ε) {W : List UInt8 → σ → σ → Prop}
    (htrans : ∀ {as bs s s' s''}, W as s s' → W bs s' s'' → W (as ++ bs) s s'') {I : σ → Prop}
    (hrefl : ∀ s, I s → W [] s s)
    (hsend : ∀ s bytes, I s → Gives (port.send s bytes) fun s' => I s' ∧ W bytes s s')
    (evs : List Event) :
    ∀ {s : σ}, I s → Gives (port.post s evs) fun s' => I s' ∧ W (posted evs) s s' := by
  induction evs with
  | nil => exact fun h => gives_ok ⟨h, hrefl _ h⟩
  | cons ev evs ih =>
      intro s h
      cases ev with
      | SEND bytes =>
          rw [Port.post, List.foldlM_cons]
          refine (hsend s bytes h).bind fun s' hs' => ?_
          exact (ih hs'.1).mono fun s'' hs'' => ⟨hs''.1, htrans hs'.2 hs''.2⟩
      | _ => exact ih h

/-- What every write keeps, a sender keeps. -/
theorem Port.post_ensures {port : Port σ ε} {I : σ → Prop}
    (hsend : ∀ s bytes, I s → Ensures (port.send s bytes) I) (evs : List Event) {s : σ} (h : I s) :
    Ensures (port.post s evs) I := by
  refine Ensures.foldlM evs (fun s ev _ h => ?_) h
  cases ev with
  | SEND bytes => exact hsend s bytes h
  | _ => exact ensures_ok h

/-- A change of the state that no write sees may be made before a sender or
after it. With this a handler is moved out of the loop it is called from. -/
theorem Port.post_map {port : Port σ ε} {f : σ → σ}
    (hsend : ∀ s bytes, port.send (f s) bytes = f <$> port.send s bytes) (evs : List Event) :
    ∀ s : σ, port.post (f s) evs = f <$> port.post s evs := by
  induction evs with
  | nil => exact fun s => rfl
  | cons ev evs ih =>
      intro s
      cases ev with
      | SEND bytes =>
          rw [Port.post, List.foldlM_cons, Port.post, List.foldlM_cons]
          simp only [hsend]
          cases port.send s bytes with
          | error e => rfl
          | ok s' => exact ih s'
      | _ => exact ih s

/-! ## 3. What the handler keeps -/

/-- The loop of `_process` with the handler called from inside, for an invariant
that setting the tracker keeps as well. The induction is on the bytes left; each
of them sets the tracker once and raises its events in between. -/
theorem App.process_loop_ensures {app : App σ ε} {I : σ → Prop}
    (hput : ∀ s t, I s → I (app.put s t))
    (hhandle : ∀ s ev, I s → Ensures (app.handle s ev) I) (rest : List UInt8) :
    ∀ (buffer : List UInt8) (i start : ℕ) (s : σ), I s →
      Ensures (app.process_loop buffer rest i start s) I := by
  have hraise : ∀ (evs : List Event) (s : σ), I s → Ensures (app.raise s evs) I :=
    fun evs s h => Ensures.foldlM evs (fun s ev _ => hhandle s ev) h
  induction rest with
  | nil => exact fun buffer i start s h => hraise _ s h
  | cons byte rest ih =>
      intro buffer i start s h
      refine (hraise _ s h).bind fun s' h' => ?_
      refine (hraise _ _ (hput s' _ h')).bind fun s'' h'' => ?_
      split
      · exact ih _ _ _ s'' h''
      · exact ih _ _ _ s'' h''

/-- **What the handler keeps, a block keeps.** Nothing is asked of the bytes,
and the handler may change the tracker in the middle of the block. -/
theorem App.telnet_recv_ensures {app : App σ ε} {I : σ → Prop} (hput : ∀ s t, I s → I (app.put s t))
    (hhandle : ∀ s ev, I s → Ensures (app.handle s ev) I) {s : σ} (h : I s) (buffer : List UInt8) :
    Ensures (app.telnet_recv s buffer) I :=
  App.process_loop_ensures hput hhandle buffer buffer 0 0 s h

/-! ## 4. A handler that leaves the tracker alone -/

/-- What the handler does has nothing to do with the tracker. -/
structure App.Inert (app : App σ ε) : Prop where
  telnet_put : ∀ s t, app.telnet (app.put s t) = t
  put_put : ∀ s t u, app.put (app.put s t) u = app.put s u
  put_telnet : ∀ s, app.put s (app.telnet s) = s
  handle : ∀ s t ev, app.handle (app.put s t) ev = (fun s => app.put s t) <$> app.handle s ev

namespace App.Inert

variable {app : App σ ε} (h : app.Inert)
include h

/-- Events one after the other: a handler that does not look at the tracker does
not look at it afterwards either. -/
theorem raise (evs : List Event) : ∀ (s : σ) (t : Telnet),
    app.raise (app.put s t) evs = (fun s => app.put s t) <$> app.raise s evs := by
  induction evs with
  | nil => exact fun s t => rfl
  | cons ev evs ih =>
      intro s t
      rw [App.raise, List.foldlM_cons, h.handle, App.raise, List.foldlM_cons]
      cases app.handle s ev with
      | error e => rfl
      | ok s' => exact ih s' t

/-- And it leaves it where it was. -/
theorem telnet_raise {evs : List Event} {s s' : σ} (hs : app.raise s evs = .ok s') :
    app.telnet s' = app.telnet s := by
  have hput := h.raise evs s (app.telnet s)
  rw [h.put_telnet, hs] at hput
  have hs' : s' = app.put s' (app.telnet s) := Except.ok.inj hput
  rw [hs', h.telnet_put]

/-- The loop of `_process`: the tracker moves on and the events are handled, and
neither waits for the other. By induction on the bytes left, taking the events
of one byte past the tracker of the next. -/
theorem process_loop (rest : List UInt8) : ∀ (buffer : List UInt8) (i start : ℕ) (s : σ),
    let r := Libtelnet.process_loop buffer rest i start (app.telnet s)
    app.process_loop buffer rest i start s = app.raise (app.put s r.1) r.2 := by
  induction rest with
  | nil =>
      intro buffer i start s
      simp only [App.process_loop, Libtelnet.process_loop, h.put_telnet]
  | cons byte rest ih =>
      intro buffer i start s
      -- the three parts of the events, raised one after the other
      have hsplit : ∀ (s : σ) (as bs : List Event),
          app.raise s (as ++ bs) = app.raise s as >>= fun s => app.raise s bs :=
        fun s as bs => List.foldlM_append
      simp only [App.process_loop, Libtelnet.process_loop]
      rw [h.raise, hsplit, hsplit]
      cases hflush : app.raise s
          (if (process_byte (app.telnet s) byte).flush then data_event buffer start i else []) with
      | error e => rfl
      | ok s₁ =>
          have htelnet := h.telnet_raise hflush
          change (app.raise _ _ >>= _) = _ <$> (app.raise _ _ >>= _)
          rw [htelnet, h.raise]
          cases app.raise s₁ (process_byte (app.telnet s) byte).events with
          | error e => rfl
          | ok s₂ =>
              change ite _ _ _ = _ <$> app.raise s₂ _
              rw [← h.raise]
              split
              · rw [ih, h.telnet_put, h.put_put]
              · rw [ih, h.telnet_put, h.put_put]

/-- **Nothing is lost by returning the events in a list.** For such a handler
`telnet_recv` of the source, which calls it from inside, is the pure one
followed by the calls. -/
theorem telnet_recv (s : σ) (buffer : List UInt8) :
    let r := Libtelnet.telnet_recv (app.telnet s) buffer
    app.telnet_recv s buffer = app.raise (app.put s r.1) r.2 :=
  h.process_loop buffer buffer 0 0 s

end App.Inert

/-! ## 5. What it hears -/

/-- Trackers that parse alike are at the same place of the loop: they flush
together, they set `start` alike, and they start the block again together. -/
theorem SameParse.pass {t u : Telnet} (h : SameParse t u) (byte : UInt8) :
    (process_byte u byte).flush = (process_byte t byte).flush
      ∧ (process_byte u byte).start = (process_byte t byte).start
      ∧ (process_byte u byte).again = (process_byte t byte).again := by
  have hu := h.state
  cases hs : t.state <;> rw [hs] at hu <;> simp only [process_byte, hs, hu]
  case DATA => split <;> exact ⟨rfl, rfl, rfl⟩
  case IAC =>
    unfold iac_byte
    split_ifs <;> exact ⟨rfl, rfl, rfl⟩
  case SB_DATA =>
    obtain ⟨hopt, hbuf⟩ := h.sb (Or.inl hs)
    have hok : (buffer_byte u byte).2.2 = (buffer_byte t byte).2.2 := by
      rw [(buffer_byte_spec h.left byte).2.2.1, (buffer_byte_spec h.right byte).2.2.1, hbuf]
    unfold sb_data_byte
    simp only [hopt, hok]
    split_ifs <;> exact ⟨rfl, rfl, rfl⟩
  case SB_DATA_IAC =>
    obtain ⟨hopt, hbuf⟩ := h.sb (Or.inr hs)
    have hok : (buffer_byte u TELNET_IAC).2.2 = (buffer_byte t TELNET_IAC).2.2 := by
      rw [(buffer_byte_spec h.left TELNET_IAC).2.2.1, (buffer_byte_spec h.right TELNET_IAC).2.2.1,
        hbuf]
    have hsub : subnegotiate u = subnegotiate t := by simp only [subnegotiate, hopt, hbuf]
    unfold sb_data_iac_byte
    simp only [hok, hsub]
    split_ifs <;> exact ⟨rfl, rfl, rfl⟩
  all_goals simp

/-- And pass the same data on themselves, which is the second IAC of a pair. -/
theorem SameParse.delivered {t u : Telnet} (h : SameParse t u) (byte : UInt8) :
    Libtelnet.delivered (process_byte u byte).events
      = Libtelnet.delivered (process_byte t byte).events := by
  by_cases ht : t.state = .DATA
  · have hu : u.state = .DATA := h.state.trans ht
    simp only [process_byte, ht, hu]
    split <;> rfl
  · have hu : u.state ≠ .DATA := by rw [h.state]; exact ht
    rw [(process_byte_outside t byte ht).events, (process_byte_outside u byte hu).events]
    exact (h.step byte).2.2 false

/-- The verbs of an option command. -/
def IsVerb (cmd : UInt8) : Prop :=
  cmd = TELNET_WILL ∨ cmd = TELNET_WONT ∨ cmd = TELNET_DO ∨ cmd = TELNET_DONT

/-- What the library raises while it takes a clear stream apart: no error,
nothing from behind the block, and of its own accord it sends option commands
only. -/
def Event.Raised : Event → Prop
  | .SEND bytes => ∃ cmd telopt, IsVerb cmd ∧ bytes = [TELNET_IAC, cmd, telopt]
  | .ERROR _ | .OVERREAD _ => False
  | _ => True

theorem raised_send_negotiate {cmd : UInt8} (h : IsVerb cmd) (telopt : UInt8) :
    (send_negotiate cmd telopt).Raised := ⟨cmd, telopt, h, rfl⟩

/-- Nothing but the option table has changed. -/
def Retabled (t t' : Telnet) : Prop := t' = { t with q := t'.q, q_size := t'.q_size }

theorem Retabled.refl (t : Telnet) : Retabled t t := rfl

/-- Changes to the table add up to a change of the table. -/
theorem Retabled.trans {t t' t'' : Telnet} (h : Retabled t t') (h' : Retabled t' t'') :
    Retabled t t'' := by
  rw [Retabled] at h h' ⊢
  rw [h', h]

/-- `_set_rfc1143` writes to the table and to nothing else. -/
theorem Retabled.set (t : Telnet) (telopt us him : UInt8) :
    Retabled t (set_rfc1143 t telopt us him) := by
  unfold set_rfc1143
  split <;> rfl

/-- What negotiating does: the table may be written, and commands sent. -/
structure Bargains (t : Telnet) (r : Telnet × List Event) : Prop where
  telnet : Retabled t r.1
  events : ∀ ev ∈ r.2, ev.Raised

/-- `telnet_negotiate`, as a handler calls it: the table changes and one command
goes out at most. So the parser does not notice that it was called. -/
theorem telnet_negotiate_bargains (t : Telnet) {cmd : UInt8} (hcmd : IsVerb cmd) (telopt : UInt8) :
    Bargains t (telnet_negotiate t cmd telopt) := by
  have hnone : ∀ ev ∈ ([] : List Event), ev.Raised := by simp
  have hsend : ∀ c, cmd = c → ∀ ev ∈ [send_negotiate c telopt], ev.Raised := by
    rintro c rfl ev (_ | ⟨_, ⟨⟩⟩)
    exact raised_send_negotiate hcmd telopt
  unfold telnet_negotiate
  refine iteInduction (fun _ => ⟨Retabled.refl t, hsend cmd rfl⟩) fun _ => ?_
  refine iteInduction (fun hc => ?_) fun _ => iteInduction (fun hc => ?_) fun _ =>
    iteInduction (fun hc => ?_) fun _ => iteInduction (fun hc => ?_) fun _ =>
      ⟨Retabled.refl t, hnone⟩
  -- in each verb one state sends the command, and two only note the wish
  all_goals
    refine iteInduction (fun _ => ⟨Retabled.set .., hsend _ hc⟩) fun _ => ?_
    refine iteInduction (fun _ => ⟨Retabled.set .., hnone⟩) fun _ => ?_
    exact iteInduction (fun _ => ⟨Retabled.set .., hnone⟩) fun _ => ⟨Retabled.refl t, hnone⟩

/-- `_negotiate`, as the library calls it for a command received. It may raise
an event as well, but no data. -/
theorem negotiate_bargains (t : Telnet) (telopt : UInt8) : Bargains t (negotiate t telopt) := by
  have hsend : ∀ cmd, IsVerb cmd → (send_negotiate cmd telopt).Raised :=
    fun _ h => raised_send_negotiate h telopt
  have hwill := hsend TELNET_WILL (Or.inl rfl)
  have hwont := hsend TELNET_WONT (Or.inr (Or.inl rfl))
  have hdo := hsend TELNET_DO (Or.inr (Or.inr (Or.inl rfl)))
  have hdont := hsend TELNET_DONT (Or.inr (Or.inr (Or.inr rfl)))
  have hnone : ∀ ev ∈ ([] : List Event), ev.Raised := by simp
  unfold negotiate negotiate_will negotiate_wont negotiate_do negotiate_dont
  refine iteInduction (fun _ => ?_) fun _ => ?_
  all_goals split
  all_goals repeat' refine iteInduction (fun _ => ?_) fun _ => ?_
  all_goals refine ⟨by first | exact Retabled.refl t | exact Retabled.set .., ?_⟩
  all_goals repeat' refine List.forall_mem_cons.mpr ⟨?_, ?_⟩
  all_goals first
    | exact trivial
    | exact hwill
    | exact hwont
    | exact hdo
    | exact hdont
    | exact hnone

/-- All events of a byte are such. -/
theorem process_byte_raised (t : Telnet) (byte : UInt8) :
    ∀ ev ∈ (process_byte t byte).events, ev.Raised := by
  by_cases hverb : t.state.isVerb
  · rw [(process_byte_verb t byte hverb).2]
    exact (negotiate_bargains t byte).events
  · intro ev hev
    have hmild := process_byte_mild t byte ev hev
    have hin := process_byte_contained t byte ev hev
    have happart := (process_byte_apart t byte hverb).2 ev hev
    cases ev with
    | SEND bytes => exact absurd rfl happart
    | ERROR msg => cases hmild
    | OVERREAD bytes => cases hin
    | _ => trivial

/-- What a handler does to the tracker in the middle of a block is nothing to
the parser. -/
theorem SameParse.retabled {t u u' : Telnet} (h : SameParse t u) (hu : Retabled u u') :
    SameParse t u' := by
  rw [hu]
  exact ⟨h.state, h.sb, h.left, h.right.le, h.right.mem⟩

/-- The application keeps step with a reader of bytes: it never ends the
process, hears the data, and of its tracker writes the option table only. -/
structure App.Simulates {γ : Type*} (app : App σ ε) (R : σ → γ → Prop) (g : γ → UInt8 → γ) :
    Prop where
  telnet_put : ∀ s t, app.telnet (app.put s t) = t
  put : ∀ {s c} t, R s c → R (app.put s t) c
  handle : ∀ {s c} {ev : Event}, ev.Raised → R s c → Gives (app.handle s ev) fun s' =>
    R s' ((delivered [ev]).foldl g c) ∧ Retabled (app.telnet s) (app.telnet s')

namespace App.Simulates

variable {γ : Type*} {app : App σ ε} {R : σ → γ → Prop} {g : γ → UInt8 → γ} (h : app.Simulates R g)
include h

/-- Events one after the other: the application is told of the data among them,
and at most the table of its tracker has changed. -/
theorem raise (evs : List Event) (hraised : ∀ ev ∈ evs, ev.Raised) : ∀ {s : σ} {c : γ}, R s c →
    Gives (app.raise s evs) fun s' =>
      R s' ((delivered evs).foldl g c) ∧ Retabled (app.telnet s) (app.telnet s') := by
  induction evs with
  | nil => exact fun hR => gives_ok ⟨hR, Retabled.refl _⟩
  | cons ev evs ih =>
      intro s c hR
      rw [App.raise, List.foldlM_cons]
      refine (h.handle (hraised ev (List.mem_cons_self ..)) hR).bind fun s' hs' => ?_
      refine (ih (fun e he => hraised e (List.mem_cons_of_mem _ he)) hs'.1).mono fun s'' hs'' => ?_
      refine ⟨?_, hs'.2.trans hs''.2⟩
      have hcons : delivered (ev :: evs) = delivered [ev] ++ delivered evs :=
        delivered_append [ev] evs
      rw [hcons, List.foldl_append]
      exact hs''.1

/-- The data the loop passes on, unless it is at a byte that is to be discarded:
there `start` is behind `i`, and the event would reach out of the block. -/
theorem data_event {buffer : List UInt8} {i start : ℕ} {t : Telnet} (hh : Holds i start t false)
    (ht : t.state = .DATA) {s : σ} {c : γ} (hp : SameParse t (app.telnet s)) (hR : R s c) :
    Gives (app.raise s (Libtelnet.data_event buffer start i)) fun s' =>
      R s' ((delivered (Libtelnet.data_event buffer start i)).foldl g c)
        ∧ SameParse t (app.telnet s') := by
  have hraised : ∀ ev ∈ Libtelnet.data_event buffer start i, ev.Raised := by
    intro ev hev
    have hin := hh.data_event ht buffer ev hev
    unfold Libtelnet.data_event at hev
    split_ifs at hev
    · cases hev
    · rw [List.mem_singleton.mp hev]
      trivial
    · rw [List.mem_singleton.mp hev] at hin
      cases hin
  exact (h.raise _ hraised hR).mono fun s' hs' => ⟨hs'.1, hp.retabled hs'.2⟩

/-- **One byte of the loop**: the application goes on to the next byte, and has
heard what the byte passes on. The data before it comes first, if the byte
begins a command. -/
theorem step (buffer rest : List UInt8) {i start : ℕ} {t : Telnet} {skip : Bool}
    (hh : Holds i start t skip) {byte : UInt8} (hb : skip → byte ≠ TELNET_IAC) {s : σ} {c : γ}
    (hp : SameParse t (app.telnet s)) (hR : R s c) :
    ∃ s', app.process_loop buffer (byte :: rest) i start s
        = (if (process_byte t byte).again then app.process_loop rest rest 0 0 s'
          else app.process_loop buffer rest (i + 1)
            (((process_byte t byte).start.map (i + ·)).getD start) s')
      ∧ R s' ((delivered ((if (process_byte t byte).flush then Libtelnet.data_event buffer start i
          else []) ++ (process_byte t byte).events)).foldl g c)
      ∧ SameParse (process_byte t byte).telnet (app.telnet s') := by
  -- the pending data, after which the trackers still parse alike
  have hflush : Gives (app.raise s (if (process_byte (app.telnet s) byte).flush
        then Libtelnet.data_event buffer start i else [])) fun s' =>
      R s' ((delivered (if (process_byte t byte).flush then Libtelnet.data_event buffer start i
          else [])).foldl g c) ∧ SameParse t (app.telnet s') := by
    rw [(hp.pass byte).1]
    cases hf : (process_byte t byte).flush with
    | false => exact gives_ok ⟨hR, hp⟩
    | true =>
        obtain ⟨ht, rfl⟩ := flush_iac hf
        obtain rfl : skip = false := by
          cases skip with
          | false => rfl
          | true => exact absurd rfl (hb rfl)
        exact h.data_event hh ht hp hR
  obtain ⟨s₁, hok₁, hR₁, hp₁⟩ := hflush
  obtain ⟨-, hstart, hagain⟩ := hp₁.pass byte
  have hevents := h.raise (process_byte (app.telnet s₁) byte).events (process_byte_raised _ _)
    (h.put (process_byte (app.telnet s₁) byte).telnet hR₁)
  rw [h.telnet_put, hp₁.delivered byte] at hevents
  obtain ⟨s₂, hok₂, hR₂, htab⟩ := hevents
  refine ⟨s₂, ?_, ?_, (hp₁.step byte).1.retabled htab⟩
  · rw [App.process_loop, hok₁]
    change (app.raise _ _ >>= _) = _
    rw [hok₂, ← hagain, ← hstart]
    rfl
  · rw [delivered_append, List.foldl_append]
    exact hR₂

/-- The loop from any point of any block on. The invariant is `Holds`, which
says where `start` is; together with `Clear` it keeps every event inside the
block. -/
theorem process_loop (rest : List UInt8) :
    ∀ {buffer : List UInt8} {i start : ℕ} {t : Telnet} {skip : Bool} {s : σ} {c : γ},
    Holds i start t skip → Clear (t, skip) rest → SameParse t (app.telnet s) → R s c →
    Gives (app.process_loop buffer rest i start s) fun s' =>
      R s' ((delivered (Libtelnet.process_loop buffer rest i start t).2).foldl g c)
        ∧ SameParse (Libtelnet.process_loop buffer rest i start t).1 (app.telnet s') := by
  induction rest with
  | nil =>
      intro buffer i start t skip s c hh hclear hp hR
      obtain rfl : skip = false := hclear
      simp only [App.process_loop, Libtelnet.process_loop, hp.state]
      split
      · next ht => exact h.data_event hh ht hp hR
      · exact gives_ok ⟨hR, hp⟩
  | cons byte rest ih =>
      intro buffer i start t skip s c hh hclear hp hR
      obtain ⟨s', hloop, hR', hp'⟩ := h.step buffer rest hh hclear.1 hp hR
      have hnext := hh.next byte
      rw [hloop]
      simp only [Libtelnet.process_loop, delivered_append, List.foldl_append] at hR' ⊢
      split
      · next hagain =>
          rw [if_pos hagain] at hnext
          exact ih hnext hclear.2 hp' hR'
      · next hagain =>
          rw [if_neg hagain] at hnext
          exact ih hnext hclear.2 hp' hR'

/-- **The application hears the data of the stream**, whatever it asks for in
the middle of a block, and the parser goes on as if it had not. -/
theorem telnet_recv {t : Telnet} {s : σ} {c : γ} (hp : SameParse t (app.telnet s)) (hR : R s c)
    {buffer : List UInt8} (hclear : Clear (t, false) buffer) :
    Gives (app.telnet_recv s buffer) fun s' =>
      R s' ((delivered (Libtelnet.telnet_recv t buffer).2).foldl g c)
        ∧ SameParse (Libtelnet.telnet_recv t buffer).1 (app.telnet s') :=
  h.process_loop buffer (Holds.first t) hclear hp hR

variable {e : ε} (hover : ∀ s bytes, app.handle s (.OVERREAD bytes) = .error e)
include hover

/-- The loop on a block that is not clear: it comes to an event that reaches out
of the block, and goes no further. The induction is the one of `process_loop`,
up to that byte. -/
theorem process_loop_overread (rest : List UInt8) :
    ∀ {buffer : List UInt8} {i start : ℕ} {t : Telnet} {skip : Bool} {s : σ} {c : γ},
    Holds i start t skip → ¬ Clear (t, skip) rest → SameParse t (app.telnet s) → R s c →
    app.process_loop buffer rest i start s = .error e := by
  have hraise : ∀ (s : σ) (bytes : List UInt8), app.raise s [.OVERREAD bytes] = .error e := by
    intro s bytes
    rw [App.raise, List.foldlM_cons, hover]
    rfl
  induction rest with
  | nil =>
      intro buffer i start t skip s c hh hclear hp hR
      obtain rfl : skip = true := by simpa [Clear] using hclear
      have ht := hh.in_data rfl
      have hevent := hh.data_event ht buffer
      rw [if_pos rfl] at hevent
      rw [App.process_loop, hp.state, if_pos ht, hevent]
      exact hraise s _
  | cons byte rest ih =>
      intro buffer i start t skip s c hh hclear hp hR
      by_cases hb : skip → byte ≠ TELNET_IAC
      -- not here, so further on
      · obtain ⟨s', hloop, hR', hp'⟩ := h.step buffer rest hh hb hp hR
        have hrest : ¬ Clear ((process_byte t byte).telnet, skips t byte) rest :=
          fun hrest => hclear ⟨hb, hrest⟩
        have hnext := hh.next byte
        rw [hloop]
        split
        · next hagain =>
            rw [if_pos hagain] at hnext
            exact ih hnext hrest hp' hR'
        · next hagain =>
            rw [if_neg hagain] at hnext
            exact ih hnext hrest hp' hR'
      -- an IAC where a byte is to be discarded
      · obtain ⟨rfl, hiac⟩ : skip = true ∧ byte = TELNET_IAC := by simpa using hb
        have ht := hh.in_data rfl
        have hevent := hh.data_event ht buffer
        rw [if_pos rfl] at hevent
        have hf : (process_byte (app.telnet s) byte).flush = true := by
          simp [process_byte, hp.state, ht, hiac]
        rw [App.process_loop, hf, if_pos rfl, hevent, hraise]
        rfl

/-- **What is not clear is the application's end**, if it ends at what it may
not read. With `telnet_recv` this makes the condition an exact one. -/
theorem telnet_recv_overread {t : Telnet} {s : σ} {c : γ} (hp : SameParse t (app.telnet s))
    (hR : R s c) {buffer : List UInt8} (hclear : ¬ Clear (t, false) buffer) :
    app.telnet_recv s buffer = .error e :=
  h.process_loop_overread hover buffer (Holds.first t) hclear hp hR

end App.Simulates

end AutoMag.Libtelnet
