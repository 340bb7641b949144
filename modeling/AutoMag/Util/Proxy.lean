/-
`Util/Proxy.lean` -- `telnet-proxy.c`, the program between a client and a server.

It reads each side with a libtelnet tracker in PROXY mode and calls, for every event of one
side, the sender for it on the other side's tracker, whose `SEND` events write the other
socket. What it prints is left out, but not what it reads in order to print it: an MSSP entry
that the library left unset ends the program. The outer loop serves one pair of connections
after the other.

The result is that it cannot be noticed: whatever arrives from the two sides, in whatever
blocks and order, each end is told what it would have been told on a direct line, and its
options come out the same (`Stage.transparent`).
-/
import AutoMag.Libtelnet.Inline
import AutoMag.Libtelnet.Mssp
import AutoMag.Libtelnet.Relay
import AutoMag.Util.Sockets

set_option autoImplicit false

namespace AutoMag.Proxy

open AutoMag.Fallible AutoMag.Libtelnet AutoMag.Machine AutoMag.Util
open AutoMag.Sending (Flows)

/-! ## 1. The two connections -/

inductive Side where
  | server
  | client
deriving DecidableEq

/-- `conn->remote`. -/
def Side.remote : Side → Side
  | .server => .client
  | .client => .server

/-- `struct conn_t`. -/
structure Conn where
  sock : Socket
  telnet : Telnet

/-- The locals `server` and `client` of `main`. -/
structure Session where
  server : Conn
  client : Conn

def Session.conn (s : Session) : Side → Conn
  | .server => s.server
  | .client => s.client

def Session.put (s : Session) (c : Conn) : Side → Session
  | .server => { s with server := c }
  | .client => { s with client := c }

/-- Both connections as they are set up. -/
def Session.init : Session :=
  let conn : Conn := ⟨{}, telnet_init [] TELNET_FLAG_PROXY⟩
  ⟨conn, conn⟩

/-! ## 2. `_event_handler` -/

/-- `case TELNET_EV_SEND`: data must be sent. -/
def on_send (net : Net) (side : Side) (s : Session) (bytes : List UInt8) :
    Except Stop Session := do
  let sock ← send net (s.conn side).sock bytes
  return s.put { s.conn side with sock := sock } side

/-- The connection, for the senders of the library. -/
def port (net : Net) (side : Side) : Port Session Stop where
  telnet := fun s => (s.conn side).telnet
  put := fun s t => s.put { s.conn side with telnet := t } side
  send := on_send net side

/-- `_event_handler` for the connection `side`. -/
def event_handler (net : Side → Net) (side : Side) (s : Session) (ev : Event) :
    Except Stop Session :=
  let remote := port (net side.remote) side.remote
  match ev with
  | .DATA buffer => remote.post s (telnet_send buffer)
  -- `print_buffer` goes over all of a `size_t`
  | .OVERREAD _ => throw .overread
  | .SEND buffer => on_send (net side) side s buffer
  | .IAC cmd => remote.post s (telnet_iac cmd)
  | .WILL telopt => remote.negotiate s TELNET_WILL telopt
  | .WONT telopt => remote.negotiate s TELNET_WONT telopt
  | .DO telopt => remote.negotiate s TELNET_DO telopt
  | .DONT telopt => remote.negotiate s TELNET_DONT telopt
  | .SUBNEGOTIATION telopt buffer => remote.post s (telnet_subnegotiation telopt buffer)
  -- `strlen` of every name and value, also of one that is not set
  | .MSSP values size => if values.length < size then throw .null else return s
  -- printed to stdout, and `exit(1)`
  | .ERROR _ => throw (.exit "")
  -- printed only
  | _ => return s

/-! ## 3. The loops of `main` -/

/-- The connection as an application of the library. -/
def app (net : Side → Net) (side : Side) : App Session Stop :=
  { port (net side) side with handle := event_handler net side }

/-- `telnet_recv` on the connection's tracker, with its handler. -/
def recv (net : Side → Net) (side : Side) (s : Session) (buffer : List UInt8) :
    Except Stop Session := (app net side).telnet_recv s buffer

/-- Reading one of the connections: the session, or `none` when the inner loop
is left. -/
def read (net : Side → Net) (side : Side) (s : Session) :
    Received → Except Stop (Option Session)
  | .block buffer => some <$> recv net side s buffer
  | .closed => return none
  | .error .EINTR | .error .ECONNRESET => return some s
  -- the source names the server in both branches
  | .error (.other text) => throw (.exit ("recv(server) failed: " ++ text ++ "\n"))

/-- One pass of the inner loop: what `send()` does in it, and what `poll()`
found to read. -/
structure Pass where
  net : Side → Net
  ready : Side → Option Received

/-- The body of the inner loop: the server's data first. -/
def pass (s : Session) (x : Pass) : Except Stop (Option Session) := do
  let step := fun (s : Option Session) (side : Side) =>
    match s, x.ready side with
    | some s, some r => read x.net side s r
    | s, _ => return s
  step (← step (some s) .server) .client

/-- The program. -/
inductive Stage where
  | listening
  | connected (s : Session)
  | exited (stop : Stop)

/-- What the program waits for. -/
inductive Input where
  -- a client came, and the server was there
  | connect
  -- a call on the way to it failed, and `main` returned 1
  | refused (stderr : String)
  | poll (x : Pass)
  -- `poll()` failed, which ends the inner loop
  | poll_failed

def Stage.step : Stage → Input → Stage
  | .listening, .connect => .connected .init
  | .listening, .refused text => .exited (.exit text)
  | .connected s, .poll x =>
      match pass s x with
      | .ok (some s) => .connected s
      | .ok none => .listening
      | .error stop => .exited stop
  | .connected _, .poll_failed => .listening
  | st, _ => st

def Stage.run (st : Stage) (inputs : List Input) : Stage := inputs.foldl Stage.step st

/-! ## 4. The handler is called from inside

The library calls the handler for each event as it comes up. What the handler writes is the
other connection's tracker and the sockets, so it may as well run over the list of events. -/

/-- Writing to a socket and setting a tracker, in either order. The two are
different fields, of the same connection or of both. -/
theorem on_send_put (net : Net) (x side : Side) (s : Session) (t : Telnet) (bytes : List UInt8) :
    on_send net x (s.put { s.conn side with telnet := t } side) bytes
      = (fun s => s.put { s.conn side with telnet := t } side) <$> on_send net x s bytes := by
  cases x <;> cases side <;> simp only [on_send, Session.put, Session.conn] <;>
    cases send _ _ _ <;> rfl

/-- The same of a sender, which writes to a socket once for each of its
events. -/
theorem post_put (net : Net) (x side : Side) (t : Telnet) (evs : List Event) (s : Session) :
    (port net x).post (s.put { s.conn side with telnet := t } side) evs
      = (fun s => s.put { s.conn side with telnet := t } side) <$> (port net x).post s evs :=
  Port.post_map (f := fun s => s.put { s.conn side with telnet := t } side)
    (fun s bytes => on_send_put net x side s t bytes) evs s

/-- The same of a negotiation, which sets the tracker of the other connection.
The one being read is not looked at, so the library may hold it meanwhile. -/
theorem negotiate_put (net : Net) (side : Side) (s : Session) (t : Telnet) (cmd telopt : UInt8) :
    (port net side.remote).negotiate (s.put { s.conn side with telnet := t } side) cmd telopt
      = (fun s => s.put { s.conn side with telnet := t } side)
        <$> (port net side.remote).negotiate s cmd telopt := by
  have hcomm : ∀ c, (s.put { s.conn side with telnet := t } side).put c side.remote
      = (s.put c side.remote).put { (s.put c side.remote).conn side with telnet := t } side := by
    intro c
    cases side <;> rfl
  have hconn : (s.put { s.conn side with telnet := t } side).conn side.remote
      = s.conn side.remote := by
    cases side <;> rfl
  simp only [Port.negotiate, port, hconn, hcomm]
  exact post_put net side.remote side t _ _

/-- **The handler does not look at the tracker it is called from**, and so the
calls from inside `telnet_recv` can be made after it has returned. -/
theorem app_inert (net : Side → Net) (side : Side) : (app net side).Inert where
  telnet_put := fun s t => by cases side <;> rfl
  put_put := fun s t u => by cases side <;> rfl
  put_telnet := fun s => by cases side <;> rfl
  handle := by
    intro s t ev
    cases ev with
    | DATA buffer => exact post_put _ _ side t _ s
    | IAC cmd => exact post_put _ _ side t _ s
    | SUBNEGOTIATION telopt buffer => exact post_put _ _ side t _ s
    | SEND buffer => exact on_send_put _ side side s t buffer
    | WILL telopt | WONT telopt | DO telopt | DONT telopt => exact negotiate_put _ side s t _ _
    | MSSP values size =>
        change ite _ _ _ = _ <$> ite _ _ _
        split <;> rfl
    | _ => rfl

/-- A block: the tracker is moved on, and the handler called for each of its
events. From here on the library's own theorems about `telnet_recv` apply. -/
theorem recv_eq (net : Side → Net) (side : Side) (s : Session) (buffer : List UInt8) :
    let r := telnet_recv (s.conn side).telnet buffer
    recv net side s buffer
      = r.2.foldlM (event_handler net side) (s.put { s.conn side with telnet := r.1 } side) :=
  (app_inert net side).telnet_recv s buffer

/-! ## 5. What one pass writes -/

@[simp] theorem Side.remote_remote (side : Side) : side.remote.remote = side := by
  cases side <;> rfl

@[simp] theorem conn_put (s : Session) (c : Conn) (side : Side) : (s.put c side).conn side = c := by
  cases side <;> rfl

@[simp] theorem conn_put_remote (s : Session) (c : Conn) (side : Side) :
    (s.put c side).conn side.remote = s.conn side.remote := by
  cases side <;> rfl

/-- Nothing but the bytes written to one socket has changed. -/
structure Wrote (side : Side) (bytes : List UInt8) (s s' : Session) : Prop where
  telnet : ∀ side, (s'.conn side).telnet = (s.conn side).telnet
  wire : (s'.conn side).sock.wire = (s.conn side).sock.wire ++ bytes
  rest : (s'.conn side.remote).sock.wire = (s.conn side.remote).sock.wire

theorem Wrote.refl (side : Side) (s : Session) : Wrote side [] s s :=
  ⟨fun _ => rfl, (List.append_nil _).symm, rfl⟩

/-- One stretch of bytes after the other, to the same side. -/
theorem Wrote.trans {side : Side} {as bs : List UInt8} {s s' s'' : Session} (h : Wrote side as s s')
    (h' : Wrote side bs s' s'') : Wrote side (as ++ bs) s s'' :=
  ⟨fun x => (h'.telnet x).trans (h.telnet x),
    by rw [h'.wire, h.wire, List.append_assoc], h'.rest.trans h.rest⟩

/-- The `SEND` case: on a network that takes what it is given, all of it. -/
theorem on_send_wrote {net : Net} (hnet : Flows net) (side : Side) (s : Session)
    (bytes : List UInt8) : Gives (on_send net side s bytes) (Wrote side bytes s) := by
  obtain ⟨sock, hok, hwire⟩ := send_flows hnet (s.conn side).sock bytes
  refine ⟨s.put { s.conn side with sock := sock } side, by rw [on_send, hok]; rfl, ?_, ?_, ?_⟩
  · intro x
    cases side <;> cases x <;> rfl
  · rw [conn_put]
    exact hwire
  · rw [conn_put_remote]

/-- All bytes of a sender, one write after the other. -/
theorem post_wrote {net : Net} (hnet : Flows net) (side : Side) (evs : List Event) (s : Session) :
    Gives ((port net side).post s evs) (Wrote side (posted evs) s) := by
  have hsend : ∀ (s : Session) (bytes : List UInt8), True →
      Gives (on_send net side s bytes) fun s' => True ∧ Wrote side bytes s s' :=
    fun s bytes _ => (on_send_wrote hnet side s bytes).mono fun _ h => ⟨trivial, h⟩
  exact (Port.post_gives (port net side) Wrote.trans (fun s _ => Wrote.refl side s) hsend
    evs (s := s) trivial).mono fun _ h => h.2

/-- In PROXY mode negotiating is sending: the library keeps no table there, and
the command goes out as it came. -/
theorem negotiate_wrote {net : Net} (hnet : Flows net) (side : Side) (s : Session)
    (hmode : (s.conn side).telnet.flags &&& TELNET_FLAG_PROXY ≠ 0) (cmd telopt : UInt8) :
    Gives ((port net side).negotiate s cmd telopt)
      (Wrote side (posted [send_negotiate cmd telopt]) s) := by
  have hsame : telnet_negotiate (s.conn side).telnet cmd telopt
      = ((s.conn side).telnet, [send_negotiate cmd telopt]) := by
    rw [telnet_negotiate, if_pos hmode]
  have hput : s.put (s.conn side) side = s := by cases side <;> rfl
  have hwrote := post_wrote hnet side [send_negotiate cmd telopt] s
  simp only [Port.negotiate, port, hsame, hput]
  exact hwrote

/-- An event the handler comes back from: it has all of what it tells of. -/
def isWhole : Event → Bool
  | .OVERREAD _ => false
  | .MSSP values size => size ≤ values.length
  | _ => true

/-- What may come up while a side is read: nothing fatal, nothing to send,
nothing missing. -/
structure Passable (ev : Event) : Prop where
  mild : ev.isMild
  quiet : ∀ bytes, ev ≠ .SEND bytes
  whole : isWhole ev

/-- **An event is passed on**, and to the other side only. What is told with it
(the parsed variables, the MSSP table, ZMP arguments) is printed; it goes out as
the subnegotiation it was parsed from. -/
theorem event_handler_wrote {net : Side → Net} (hnet : ∀ side, Flows (net side)) (side : Side)
    (s : Session) (hmode : (s.conn side.remote).telnet.flags &&& TELNET_FLAG_PROXY ≠ 0)
    {ev : Event} (hev : Passable ev) :
    Gives (event_handler net side s ev) (Wrote side.remote (relayed ev) s) := by
  have hwhole := hev.whole
  cases ev with
  | DATA buffer => exact post_wrote (hnet _) _ _ s
  | IAC cmd => exact post_wrote (hnet _) _ _ s
  | SUBNEGOTIATION telopt buffer => exact post_wrote (hnet _) _ _ s
  | WILL telopt | WONT telopt | DO telopt | DONT telopt =>
      exact negotiate_wrote (hnet _) _ s hmode _ _
  | MSSP values size =>
      have hset : ¬ values.length < size := Nat.not_lt.mpr (of_decide_eq_true hwhole)
      simp only [event_handler, if_neg hset]
      exact gives_ok (Wrote.refl _ s)
  | ERROR msg => cases hev.mild
  | OVERREAD bytes => cases hwhole
  | SEND buffer => exact absurd rfl (hev.quiet buffer)
  | _ => exact gives_ok (Wrote.refl _ s)

/-- All the events of a block, one after the other: what goes out is what each
of them is passed on as. -/
theorem handle_wrote {net : Side → Net} (hnet : ∀ side, Flows (net side)) (side : Side)
    (evs : List Event) : ∀ s : Session,
    (s.conn side.remote).telnet.flags &&& TELNET_FLAG_PROXY ≠ 0 → (∀ ev ∈ evs, Passable ev) →
    Gives (evs.foldlM (event_handler net side) s) (Wrote side.remote (evs.flatMap relayed) s) := by
  induction evs with
  | nil => exact fun s _ _ => gives_ok (Wrote.refl _ s)
  | cons ev evs ih =>
      intro s hmode hevs
      rw [List.foldlM_cons]
      refine (event_handler_wrote hnet side s hmode (hevs ev (List.mem_cons_self ..))).bind
        fun s' hw => ?_
      refine (ih s' (by rw [hw.telnet]; exact hmode)
        fun e he => hevs e (List.mem_cons_of_mem _ he)).mono fun s'' hw' => hw.trans hw'

/-! ## 6. What a run writes -/

/-- What the session has read of the two sides, block by block, is where its
trackers are and what it has written. -/
structure Relays (s : Session) (blocks : Side → List (List UInt8)) : Prop where
  telnet : ∀ side,
    (s.conn side).telnet = (feed telnet_recv (telnet_init [] TELNET_FLAG_PROXY) (blocks side)).1
  wire : ∀ side, (s.conn side.remote).sock.wire
    = (feed telnet_recv (telnet_init [] TELNET_FLAG_PROXY) (blocks side)).2.flatMap relayed

theorem relays_init : Relays .init fun _ => [] := by
  constructor <;> (intro side; cases side <;> rfl)

/-- The flags are set once, when the tracker is made, and no byte changes
them. -/
theorem flags_recv (blocks : List (List UInt8)) :
    (feed telnet_recv (telnet_init [] TELNET_FLAG_PROXY) blocks).1.flags = TELNET_FLAG_PROXY := by
  have hstep : ∀ (blocks : List (List UInt8)) (t : Telnet), t.flags = TELNET_FLAG_PROXY →
      (feed telnet_recv t blocks).1.flags = TELNET_FLAG_PROXY := by
    intro blocks
    induction blocks with
    | nil => exact fun t h => h
    | cons b blocks ih =>
        intro t h
        apply ih
        rw [(telnet_recv_proxy (by rw [h]; decide) b).1, h]
  exact hstep blocks _ rfl

/-- One more block of one side, if its events are whole. That they are mild and
none of them is to be sent back is true of every block that is read in PROXY
mode. -/
theorem Relays.recv {s : Session} {blocks : Side → List (List UInt8)} (h : Relays s blocks)
    {net : Side → Net} (hnet : ∀ side, Flows (net side)) (side : Side) (buffer : List UInt8)
    (hwhole : ∀ ev ∈ (telnet_recv (s.conn side).telnet buffer).2, isWhole ev) :
    Gives (recv net side s buffer) fun s' =>
      Relays s' (Function.update blocks side (blocks side ++ [buffer])) := by
  have hflags : ∀ x, (s.conn x).telnet.flags &&& TELNET_FLAG_PROXY ≠ 0 := by
    intro x
    rw [h.telnet, flags_recv]
    decide
  have hevs : ∀ ev ∈ (telnet_recv (s.conn side).telnet buffer).2, Passable ev := fun ev hev =>
    ⟨telnet_recv_mild _ _ ev hev, (telnet_recv_proxy (hflags side) buffer).2 ev hev, hwhole ev hev⟩
  rw [recv_eq]
  refine (handle_wrote hnet side _ _ (by rw [conn_put_remote]; exact hflags _) hevs).mono
    fun s' hw => ⟨?_, ?_⟩
  · intro x
    rw [hw.telnet]
    by_cases hx : x = side
    · subst hx
      rw [conn_put, Function.update_self, feed_append, h.telnet]
      rfl
    · have hr : x = side.remote := by
        cases x <;> cases side <;> first | rfl | exact absurd rfl hx
      rw [Function.update_of_ne hx, hr, conn_put_remote, h.telnet]
  · intro x
    by_cases hx : x = side
    · subst hx
      rw [hw.wire, conn_put_remote, Function.update_self, feed_append, h.wire,
        List.flatMap_append, h.telnet, feed_cons]
      simp
    · have hr : x.remote = side := by
        cases x <;> cases side <;> first | rfl | exact absurd rfl hx
      have hrest := hw.rest
      rw [Side.remote_remote, conn_put] at hrest
      rw [Function.update_of_ne hx, hr, hrest, ← h.wire x, hr]

/-- The call came back with data, or was interrupted. -/
def Stays : Option Received → Prop
  | none | some (.block _) | some (.error .EINTR) | some (.error .ECONNRESET) => True
  | _ => False

/-- A pass in which nothing fails and nobody leaves. -/
structure Pass.Works (x : Pass) : Prop where
  net : ∀ side, Flows (x.net side)
  ready : ∀ side, Stays (x.ready side)

/-- The block a pass reads of a side, if any. -/
def Pass.block (x : Pass) (side : Side) : List (List UInt8) :=
  match x.ready side with
  | some (.block buffer) => [buffer]
  | _ => []

/-- The blocks a list of passes reads of a side. -/
def received (passes : List Pass) (side : Side) : List (List UInt8) := passes.flatMap (·.block side)

/-- All events of these blocks are whole. -/
def Whole (blocks : List (List UInt8)) : Prop :=
  ∀ ev ∈ (feed telnet_recv (telnet_init [] TELNET_FLAG_PROXY) blocks).2, isWhole ev

/-- Blocks that are whole are so from the front: what comes later does not
change how the ones before it are read. -/
theorem Whole.of_append {as bs : List (List UInt8)} (h : Whole (as ++ bs)) : Whole as := by
  intro ev hev
  apply h ev
  rw [feed_append]
  exact List.mem_append_left _ hev

/-- A stream with no MCCP version 1 and no VAL at the end of an MSSP
subnegotiation, in any blocks. The first keeps the library inside the block it
is given, the second keeps the table it reports free of entries nobody has
set. -/
theorem whole_of_plain {blocks : List (List UInt8)}
    (hplain : Plain (telnet_init [] TELNET_FLAG_PROXY) blocks.flatten)
    (hvalued : Valued (telnet_init [] TELNET_FLAG_PROXY) blocks.flatten) : Whole blocks := by
  intro ev hev
  have htold : ∀ e ∈ ev.bytewise, e ∈ told (telnet_init [] TELNET_FLAG_PROXY) blocks.flatten := by
    intro e he
    rw [← (recv_told blocks hplain).2]
    exact List.mem_flatMap.mpr ⟨ev, hev, he⟩
  cases ev with
  | OVERREAD bytes => cases told_contained _ _ _ (htold _ (List.mem_singleton_self _))
  | MSSP values size =>
      have hset := hvalued.set (htold _ (List.mem_singleton_self _))
      exact decide_eq_true (Nat.le_of_eq hset.symm)
  | _ => rfl

/-- One block of one side, or none. -/
theorem Relays.read {s : Session} {blocks : Side → List (List UInt8)} (h : Relays s blocks)
    {x : Pass} (hx : x.Works) (side : Side) (hwhole : Whole (blocks side ++ x.block side)) :
    ∃ s', (match some s, x.ready side with
        | some s, some r => Proxy.read x.net side s r
        | s, _ => return s) = .ok (some s')
      ∧ Relays s' (Function.update blocks side (blocks side ++ x.block side)) := by
  have hsame : Function.update blocks side (blocks side ++ []) = blocks := by
    rw [List.append_nil, Function.update_eq_self]
  have hready := hx.ready side
  rw [Pass.block] at hwhole ⊢
  match x.ready side, hready, hwhole with
  | none, _, _ | some (.error .EINTR), _, _ | some (.error .ECONNRESET), _, _ =>
      exact ⟨s, rfl, by rw [hsame]; exact h⟩
  | some (.block buffer), _, hwhole =>
      have hblock : ∀ ev ∈ (telnet_recv (s.conn side).telnet buffer).2, isWhole ev := by
        intro ev hev
        apply hwhole ev
        rw [feed_append, feed_cons, ← h.telnet]
        simp [hev]
      obtain ⟨s', hok, hrel⟩ := h.recv hx.net side buffer hblock
      exact ⟨s', by simp only [Proxy.read, hok]; rfl, hrel⟩

/-- **One pass**: the server's block first, and then the client's, which is read
by the session the first has left. -/
theorem Relays.pass {s : Session} {blocks : Side → List (List UInt8)} (h : Relays s blocks)
    {x : Pass} (hx : x.Works) (hwhole : ∀ side, Whole (blocks side ++ x.block side)) :
    ∃ s', Proxy.pass s x = .ok (some s') ∧ Relays s' fun side => blocks side ++ x.block side := by
  obtain ⟨s', hok, hrel⟩ := h.read hx .server (hwhole .server)
  obtain ⟨s'', hok', hrel'⟩ := hrel.read hx .client (hwhole .client)
  refine ⟨s'', ?_, ?_⟩
  · simp only [Proxy.pass]
    rw [hok]
    exact hok'
  · have hboth : Function.update (Function.update blocks .server
          (blocks .server ++ x.block .server)) .client
        (Function.update blocks .server (blocks .server ++ x.block .server) .client
          ++ x.block .client)
        = fun side => blocks side ++ x.block side := by
      funext side
      cases side <;> rfl
    rw [← hboth]
    exact hrel'

/-- **A run.** The induction is on the passes, for any blocks that have gone
through before. -/
theorem Relays.run (passes : List Pass) : ∀ {s : Session} {blocks : Side → List (List UInt8)},
    Relays s blocks → (∀ x ∈ passes, x.Works) →
    (∀ side, Whole (blocks side ++ received passes side)) →
    ∃ s', (Stage.connected s).run (passes.map .poll) = .connected s'
      ∧ Relays s' fun side => blocks side ++ received passes side := by
  induction passes with
  | nil =>
      intro s blocks h _ _
      refine ⟨s, rfl, ?_⟩
      simp only [received, List.flatMap_nil, List.append_nil]
      exact h
  | cons x passes ih =>
      intro s blocks h hworks hwhole
      simp only [received, List.flatMap_cons, ← List.append_assoc] at hwhole
      obtain ⟨s', hok, hrel⟩ := h.pass (hworks x (List.mem_cons_self ..))
        fun side => (hwhole side).of_append
      obtain ⟨s'', hrun, hrel'⟩ := ih hrel (fun y hy => hworks y (List.mem_cons_of_mem _ hy)) hwhole
      refine ⟨s'', ?_, ?_⟩
      · rw [List.map_cons, Stage.run, List.foldl_cons, Stage.step, hok]
        exact hrun
      · simp only [received, List.flatMap_cons, ← List.append_assoc]
        exact hrel'

/-! ## 7. It cannot be noticed -/

/-- **The proxy cannot be noticed**: after whatever came before, a session in
which no call fails goes on whatever arrives, and at every moment of it an end
with any options and any past that reads what was written to it, in any blocks,
has been told what the blocks received from the other side would have told it,
and has the same options. Two things may not arrive: the beginning of MCCP
version 1, and an MSSP subnegotiation with a VAL at its end. And the end that
reads was between two commands before. -/
theorem Stage.transparent (before : List Input) (hbefore : Stage.listening.run before = .listening)
    (passes : List Pass) (hworks : ∀ x ∈ passes, x.Works)
    (hplain : ∀ side, Plain (telnet_init [] TELNET_FLAG_PROXY) (received passes side).flatten)
    (hvalued : ∀ side, Valued (telnet_init [] TELNET_FLAG_PROXY) (received passes side).flatten) :
    ∃ s, Stage.listening.run (before ++ .connect :: passes.map .poll) = .connected s
      ∧ ∀ (side : Side) (telopts : List Telopt) (flags : UInt8) (past : List (List UInt8)),
        let u := (feed telnet_recv (telnet_init telopts flags) past).1
        u.state = .DATA →
        ∀ cut : List (List UInt8), cut.flatten = (s.conn side.remote).sock.wire →
          news (bytewise (feed telnet_recv u cut).2)
              = news (bytewise (feed telnet_recv u (received passes side)).2)
            ∧ SameTable (feed telnet_recv u (received passes side)).1
              (feed telnet_recv u cut).1 := by
  obtain ⟨s, hrun, hrel⟩ := relays_init.run passes hworks
    fun side => whole_of_plain (hplain side) (hvalued side)
  refine ⟨s, ?_, ?_⟩
  · rw [Stage.run, List.foldl_append]
    rw [Stage.run] at hbefore
    rw [hbefore]
    exact hrun
  · intro side telopts flags past u hu cut hcut
    rw [hrel.wire] at hcut
    exact relay_transparent rfl (sized_recv [] TELNET_FLAG_PROXY []) (by decide) hu
      (sized_recv telopts flags past) (hplain side) hcut

/-- The server sends a letter, a TERMINAL-TYPE request that it does not finish,
and WILL ECHO; the client sends an MSSP variable with a value. -/
def unfinished : Pass where
  net := fun _ _ size => .sent size
  ready
    | .server => some (.block [65, TELNET_IAC, TELNET_SB, TELNET_TELOPT_TTYPE, TELNET_TTYPE_SEND,
        TELNET_IAC, TELNET_WILL, 1])
    | .client => some (.block [TELNET_IAC, TELNET_SB, TELNET_TELOPT_MSSP, TELNET_MSSP_VAR, 97,
        TELNET_MSSP_VAL, 98, TELNET_IAC, TELNET_SE])

/-- Both ends of `unfinished`: the client is told of the request although it was
broken off, since the library reports what a command cuts short, and the server
is told of the variable. -/
theorem Stage.transparent_unfinished :
    ∃ s, Stage.listening.run [.connect, .poll unfinished] = .connected s
      ∧ news (bytewise (feed telnet_recv (telnet_init [] 0) [s.client.sock.wire]).2)
        = [.DATA [65], .SUBNEGOTIATION TELNET_TELOPT_TTYPE [TELNET_TTYPE_SEND],
          .TTYPE TELNET_TTYPE_SEND [], .SEND [TELNET_IAC, TELNET_DONT, 1]]
      ∧ news (bytewise (feed telnet_recv (telnet_init [] 0) [s.server.sock.wire]).2)
        = [.SUBNEGOTIATION TELNET_TELOPT_MSSP [TELNET_MSSP_VAR, 97, TELNET_MSSP_VAL, 98],
          .MSSP [⟨0, [97], [98]⟩] 1] := by
  have hworks : ∀ x ∈ [unfinished], x.Works := by
    simp only [List.mem_singleton, forall_eq]
    refine ⟨fun _ k size hsize => ⟨size, rfl, hsize, Nat.le_refl _⟩, fun side => ?_⟩
    cases side <;> trivial
  have hplain : ∀ side,
      Plain (telnet_init [] TELNET_FLAG_PROXY) (received [unfinished] side).flatten := by
    intro side
    cases side <;> repeat' constructor
  have hvalued : ∀ side,
      Valued (telnet_init [] TELNET_FLAG_PROXY) (received [unfinished] side).flatten := by
    intro side
    cases side <;> decide
  obtain ⟨s, hrun, hsame⟩ := Stage.transparent [] rfl [unfinished] hworks hplain hvalued
  have hclient : [s.client.sock.wire].flatten = (s.conn Side.server.remote).sock.wire := by
    rw [List.flatten_singleton]
    rfl
  have hserver : [s.server.sock.wire].flatten = (s.conn Side.client.remote).sock.wire := by
    rw [List.flatten_singleton]
    rfl
  exact ⟨s, hrun, (hsame .server [] 0 [] rfl _ hclient).1, (hsame .client [] 0 [] rfl _ hserver).1⟩

end AutoMag.Proxy
