/-
`Util/ChatRoom.lean` -- what the chat server is for: a room.

The room has a seat for every slot of the table, and on every taken seat a screen. It knows no
sockets, no telnet commands and no echo option; it says who is shown what. On working
connections every function of the server shows what the room does: what goes out on a user's
socket reads as his screen, for any telnet end and however the bytes are cut. Runs are in
`ChatRun.lean`.
-/
import AutoMag.Libtelnet.RoundTrip
import AutoMag.Util.Chatd

set_option autoImplicit false

namespace AutoMag.Chatd

open AutoMag.Client (ascii)
open AutoMag.Fallible AutoMag.Libtelnet AutoMag.Machine AutoMag.Util
open AutoMag.Sending (Flows)

/-! ## 1. The room -/

/-- Something shown: to one user alone, or said by a user to everybody. -/
inductive Shown where
  | alone (text : List UInt8)
  | all (user msg : CString)

def Shown.text : Shown → List UInt8
  | .alone text => text
  | .all user msg => said user msg

/-- What a screen reads as: the texts in order, with the line ends of the
network. -/
def written (screen : List Shown) : List UInt8 := screen.flatMap fun x => network x.text

/-- A seat, with the ear of whoever sits there: a telnet parser and the line
begun. -/
structure Seat where
  taken : Bool := false
  name : Option CString := none
  screen : List Shown := []
  telnet : Telnet := telnet_init telopts 0
  linebuf : LineBuffer LINEBUFFER_SIZE := .clear _

abbrev Room : Type := Slot → Seat

namespace Room

def init : Room := fun _ => {}

def put (r : Room) (i : Slot) (s : Seat) : Room := Function.update r i s

end Room

/-- More on the screen, if there is somebody to see it. -/
def Seat.add (s : Seat) (xs : List Shown) : Seat :=
  if s.taken then { s with screen := s.screen ++ xs } else s

namespace Room

def tell (r : Room) (i : Slot) (text : List UInt8) : Room := r.put i ((r i).add [.alone text])

/-- Said to everybody. -/
def say (r : Room) (user msg : CString) : Room := fun i => (r i).add [.all user msg]

/-- Somebody with a name goes. -/
def farewell (r : Room) (i : Slot) (msg : CString) : Room :=
  match (r i).name with
  | none => r
  | some name => (r.say name msg).put i { r.say name msg i with name := none }

def login (r : Room) (i : Slot) (line : CString) : Room :=
  if line.bytes.length = 0 ∨ 32 < line.bytes.length then
    r.tell i (ascii "Invalid name.\nEnter name: ")
  else if ∃ j, (r j).name = some line then
    r.tell i (ascii "Name in use.\nEnter name: ")
  else
    (r.put i { r i with name := some line }).tell i
      (ascii "Welcome, " ++ line.bytes ++ ascii "!\n")

/-- A line from a seat. -/
def hear (r : Room) (i : Slot) (line : CString) : Room :=
  match (r i).name with
  | none => r.login i line
  | some name =>
      if line.bytes = ascii "quit" then (r.put i { r i with taken := false }).farewell i has_quit
      else r.say name line

/-- A character from a seat. -/
def type (i : Slot) (r : Room) (ch : UInt8) : Room :=
  let p := linebuffer_push (r i).linebuf ch
  p.2.foldl (fun r l => r.hear i l.line) (r.put i { r i with linebuf := p.1 })

/-- A block of bytes from a seat. -/
def receive (r : Room) (i : Slot) (buffer : List UInt8) : Room :=
  let p := telnet_recv (r i).telnet buffer
  let r := (delivered p.2).foldl (type i) r
  r.put i { r i with telnet := p.1 }

def enter (r : Room) (i : Slot) : Room :=
  (r.put i { r i with taken := true, screen := [], telnet := telnet_init telopts 0 }).tell i
    (ascii "Enter name: ")

def leave (r : Room) (i : Slot) : Room :=
  (r.put i { r i with taken := false }).farewell i has_disconnected

def free (r : Room) : Option Slot := (List.finRange MAX_USERS).find? fun i => !(r i).taken

/-- The seats in turn, up to the first whose user is gone. -/
def serve (x : Pass) : List Slot → Room → Room
  | [], r => r
  | i :: is, r =>
      if (r i).taken then
        match x.ready i with
        | some (.block buffer) => serve x is (r.receive i buffer)
        | some .closed => r.leave i
        | _ => serve x is r
      else serve x is r

def come (r : Room) (x : Pass) : Room :=
  match x.connection, r.free with
  | some _, some i => r.enter i
  | _, _ => r

def pass (r : Room) (x : Pass) : Room := serve x (List.finRange MAX_USERS) (r.come x)

end Room

/-! ## 2. What a user reads -/

/-- Bytes that any tracker between two commands reads as this text, and is
between two commands again. -/
def Utters (bytes text : List UInt8) : Prop :=
  ∀ t : Telnet, t.state = .DATA → Sized t →
    ∃ u evs, Reads t bytes u evs ∧ u.state = .DATA ∧ Sized u ∧ delivered evs = text

theorem utters_nil : Utters [] [] := fun t hs hz => ⟨t, [], reads_nil t, hs, hz, rfl⟩

/-- Texts follow each other: the first one leaves the reader between two
commands, which is where the second one may begin. -/
theorem Utters.append {as bs text text' : List UInt8} (ha : Utters as text) (hb : Utters bs text') :
    Utters (as ++ bs) (text ++ text') := by
  intro t hs hz
  obtain ⟨u, evs, hread, hu, hzu, htext⟩ := ha t hs hz
  obtain ⟨v, evs', hread', hv, hzv, htext'⟩ := hb u hu hzu
  exact ⟨v, evs ++ evs', hread.trans hread', hv, hzv, by rw [delivered_append, htext, htext']⟩

/-- What `telnet_printf` sends is read as the text with network line ends. The
doubled IACs come out single, and none of the rest can start a command. -/
theorem utters_printf (output : List UInt8) :
    Utters (posted (telnet_printf output)) (network output) := by
  intro t hs hz
  rw [posted_telnet_printf]
  obtain ⟨u, hgo, hu, hzu, -⟩ := says_data (network output) t hs hz
  refine ⟨u, _, hgo.toReads, hu, hzu, ?_⟩
  rw [delivered, List.flatMap_assoc]
  exact List.flatMap_singleton' _

/-- An option command is not text. It moves the reader out of the DATA state for
two bytes and back, and delivers nothing. -/
theorem utters_command {cmd : UInt8} (hcmd : IsVerb cmd) (telopt : UInt8) :
    Utters [TELNET_IAC, cmd, telopt] [] := by
  intro t hs hz
  -- the command takes the tracker to the state of its verb, and the option back
  obtain ⟨state, hverb, hiac⟩ : ∃ state : State, state.isVerb ∧
      iac_byte { t with state := .IAC } cmd = { telnet := { t with state := state } } := by
    rcases hcmd with rfl | rfl | rfl | rfl
    · exact ⟨.WILL, rfl, rfl⟩
    · exact ⟨.WONT, rfl, rfl⟩
    · exact ⟨.DO, rfl, rfl⟩
    · exact ⟨.DONT, rfl, rfl⟩
  have hfirst := (goes_command hs).toReads
  have hsecond : Reads { t with state := .IAC } [cmd] { t with state := state } [] :=
    reads_byte (by simp [skips]) (by simp [tell_step, process_byte, hiac])
  obtain ⟨htelnet, hevents⟩ := process_byte_verb { t with state := state } telopt hverb
  have hdata : state ≠ .DATA := by
    rintro rfl
    cases hverb
  have hsb : state ≠ .SB_DATA := by
    rintro rfl
    cases hverb
  have hthird : Reads { t with state := state } [telopt]
      (process_byte { t with state := state } telopt).telnet
      (Libtelnet.negotiate { t with state := state } telopt).2 :=
    reads_byte (by simp [skips, hsb]) (by simp [tell_step, hdata, hevents])
  refine ⟨_, _, hfirst.trans (hsecond.trans hthird), ?_, ?_, ?_⟩
  · rw [htelnet]
  · rw [htelnet]
    exact ((hz.setState state).negotiate telopt).setState _
  · exact delivered_eq_nil fun ev hev => (negotiate_kinds _ _ ev hev).1

/-- The replies of the library to a user's own stream are such commands, so they
show on no screen. -/
theorem utters_raised (evs : List Event) (h : ∀ ev ∈ evs, ev.Raised) : Utters (posted evs) [] := by
  induction evs with
  | nil => exact utters_nil
  | cons ev evs ih =>
      have hrest := ih fun e he => h e (List.mem_cons_of_mem _ he)
      cases ev with
      | SEND bytes =>
          obtain ⟨cmd, telopt, hcmd, rfl⟩ := h _ (List.mem_cons_self ..)
          exact (utters_command hcmd telopt).append hrest
      | _ => exact hrest

/-- What is delivered does not depend on how the library cut it into events. -/
theorem delivered_bytewise (evs : List Event) : delivered (bytewise evs) = delivered evs := by
  induction evs with
  | nil => rfl
  | cons ev evs ih =>
      have hcons : delivered (ev :: evs) = delivered [ev] ++ delivered evs :=
        delivered_append [ev] evs
      have hone : delivered ev.bytewise = delivered [ev] := by
        cases ev with
        | DATA bytes =>
            simp only [Event.bytewise, delivered, List.flatMap_map]
            simp
        | _ => rfl
      rw [bytewise, List.flatMap_cons, delivered_append, hcons, hone]
      exact congrArg _ ih

/-- **The text arrives**, in any blocks. `Utters` is about one byte after the
other; that a run of `telnet_recv` comes to the same is what the library's
stream lemmas say. -/
theorem Utters.delivered {bytes text : List UInt8} (h : Utters bytes text) {t : Telnet}
    (hs : t.state = .DATA) (hz : Sized t) {cut : List (List UInt8)} (hcut : cut.flatten = bytes) :
    Libtelnet.delivered (feed telnet_recv t cut).2 = text := by
  obtain ⟨u, evs, hread, -, -, htext⟩ := h t hs hz
  rw [← hcut] at hread
  rw [← delivered_bytewise, (recv_told cut hread.plain).2, hread.told, htext]

/-! ## 3. The server shows the room -/

/-- What went out on the socket reads as the screen. -/
def OnScreen : Sock → Bool → List Shown → Prop
  | .none, taken, _ => taken = false
  | .live s, taken, screen => taken = true ∧ Utters s.wire (written screen)
  | .stale, _, _ => False

/-- A user on his seat; `P` relates the two trackers. -/
structure Seated (P : Telnet → Telnet → Prop) (u : User) (s : Seat) : Prop where
  name : u.name = s.name
  linebuf : u.linebuf = s.linebuf
  telnet : P s.telnet u.telnet
  sock : OnScreen u.sock s.taken s.screen

/-- The table shows the room. -/
def Shows (P : Slot → Telnet → Telnet → Prop) (w : Users) (r : Room) : Prop :=
  ∀ j, Seated (P j) (w j) (r j)

@[simp] theorem Room.put_self (r : Room) (i : Slot) (s : Seat) : r.put i s i = s :=
  Function.update_self ..

theorem Room.put_of_ne {i j : Slot} (h : j ≠ i) (r : Room) (s : Seat) : r.put i s j = r j :=
  Function.update_of_ne h ..

@[simp] theorem Room.put_same (r : Room) (i : Slot) : r.put i (r i) = r :=
  Function.update_eq_self ..

@[simp] theorem Seat.add_nil (s : Seat) : s.add [] = s := by simp [Seat.add]

/-- Seat by seat or all at once: `_message` has a loop over the slots, the room
has one step. -/
theorem Room.foldl_add (r : Room) (user msg : CString) :
    (List.finRange MAX_USERS).foldl (fun r i => r.put i ((r i).add [.all user msg])) r
      = r.say user msg := by
  have hone : ∀ (is : List Slot), is.Nodup → ∀ (r : Room) (j : Slot),
      is.foldl (fun r i => r.put i ((r i).add [.all user msg])) r j
        = if j ∈ is then (r j).add [.all user msg] else r j := by
    intro is
    induction is with
    | nil => exact fun _ r j => rfl
    | cons i is ih =>
        intro hnodup r j
        obtain ⟨hi, hnodup⟩ := List.nodup_cons.mp hnodup
        rw [List.foldl_cons, ih hnodup]
        by_cases hj : j = i
        · subst hj
          simp [hi]
        · simp [hj, Room.put_of_ne hj]
  funext j
  rw [hone _ (List.nodup_finRange _) r j, if_pos (List.mem_finRange j), Room.say]

/-- A live socket is a taken seat. -/
theorem OnScreen.valid {sock : Sock} {taken : Bool} {screen : List Shown}
    (h : OnScreen sock taken screen) :
    sock.valid = taken := by
  cases sock with
  | none => exact (show taken = false from h).symm
  | live s => exact h.1.symm
  | stale => exact absurd h id

/-- The socket after these bytes. -/
def Writes (bytes : List UInt8) : Sock → Sock → Prop
  | .none, .none => True
  | .live s, .live s' => s'.wire = s.wire ++ bytes
  | _, _ => False

theorem Writes.refl {sock : Sock} (h : sock ≠ .stale) : Writes [] sock sock := by
  cases sock with
  | none => trivial
  | live s => exact (List.append_nil _).symm
  | stale => exact h rfl

/-- One write after the other on the same socket. -/
theorem Writes.trans {as bs : List UInt8} {sock sock' sock'' : Sock} (h : Writes as sock sock')
    (h' : Writes bs sock' sock'') : Writes (as ++ bs) sock sock'' := by
  match sock, sock', sock'', h, h' with
  | .none, .none, .none, _, _ => trivial
  | .live s, .live s', .live s'', h, h' =>
      have hone : s'.wire = s.wire ++ as := h
      have htwo : s''.wire = s'.wire ++ bs := h'
      change s''.wire = s.wire ++ (as ++ bs)
      rw [htwo, hone, List.append_assoc]

/-- Writing never makes a descriptor stale; only closing one that is still used
does. -/
theorem Writes.not_stale {bytes : List UInt8} {sock sock' : Sock} (h : Writes bytes sock sock') :
    sock' ≠ .stale := by
  rintro rfl
  cases sock <;> exact h

/-- What is written to a socket is on the screen behind it, if there is
somebody. -/
theorem OnScreen.writes {sock sock' : Sock} {taken : Bool} {screen xs : List Shown}
    {bytes : List UInt8}
    (h : OnScreen sock taken screen) (hw : Writes bytes sock sock')
    (hu : Utters bytes (written xs)) :
    OnScreen sock' taken (if taken then screen ++ xs else screen) := by
  match sock, sock', hw with
  | .none, .none, _ => exact h
  | .live s, .live s', hw =>
      obtain ⟨rfl, hscreen⟩ := h
      refine ⟨rfl, ?_⟩
      rw [show s'.wire = s.wire ++ bytes from hw, if_pos rfl, written, List.flatMap_append]
      exact hscreen.append hu

section Shows

variable {P : Slot → Telnet → Telnet → Prop} {w : Users} {r : Room}

/-- The two tables may be changed in one place at a time, as long as they still
agree there. -/
theorem Shows.put (h : Shows P w r) {i : Slot} {u : User} {s : Seat} (hi : Seated (P i) u s) :
    Shows P (w.put i u) (r.put i s) := by
  intro j
  by_cases hj : j = i
  · subst hj
    rw [Users.put_self, Room.put_self]
    exact hi
  · rw [Users.put_of_ne hj, Room.put_of_ne hj]
    exact h j

/-- The trackers may be related in another way. Inside `telnet_recv` the tracker
of the user being served runs ahead of his seat, and the others' do not. -/
theorem Shows.retelnet (h : Shows P w r) {Q : Slot → Telnet → Telnet → Prop}
    (hQ : ∀ j, Q j (r j).telnet (w j).telnet) : Shows Q w r :=
  fun j => ⟨(h j).name, (h j).linebuf, hQ j, (h j).sock⟩

/-! ## 4. One call at a time -/

variable {net : Slot → Net} (hnet : ∀ i, Flows (net i))
include hnet

omit hnet in
/-- In the room nobody's descriptor is stale, so no write of the server can
fail. -/
theorem Shows.stale (h : Shows P w r) (i : Slot) : (w i).sock ≠ .stale := by
  intro hs
  have hi := (h i).sock
  rw [hs] at hi
  exact hi

omit hnet in
/-- The step of everything below: some bytes to one user, which he reads as
`xs`, and `xs` on his screen. -/
theorem Shows.writes (h : Shows P w r) {i : Slot} {sock : Sock} {bytes : List UInt8}
    {xs : List Shown} (hw : Writes bytes (w i).sock sock) (hu : Utters bytes (written xs)) :
    Shows P (w.put i { w i with sock := sock }) (r.put i ((r i).add xs)) := by
  have hsock := (h i).sock.writes hw hu
  apply h.put
  unfold Seat.add
  split
  · next ht =>
    rw [if_pos ht] at hsock
    exact ⟨(h i).name, (h i).linebuf, (h i).telnet, hsock⟩
  · next ht =>
    rw [if_neg ht] at hsock
    exact ⟨(h i).name, (h i).linebuf, (h i).telnet, hsock⟩

omit w r P in
/-- The `SEND` case of the handler over a network that takes what it is given.
On a slot without a socket `_send` returns at once and nothing is written. -/
theorem on_send_writes {w : Users} {i : Slot} (hs : (w i).sock ≠ .stale) (bytes : List UInt8) :
    Gives (on_send net i w bytes) fun w' =>
      ∃ sock, w' = w.put i { w i with sock := sock } ∧ Writes bytes (w i).sock sock := by
  rw [on_send]
  match (w i).sock, hs with
  | .none, _ => exact gives_ok ⟨.none, rfl, trivial⟩
  | .live s, _ =>
      obtain ⟨s', hok, hwire⟩ := send_flows (hnet i) s bytes
      rw [send, hok]
      exact gives_ok ⟨.live s', rfl, hwire⟩

omit w r P in
/-- All bytes of a sender, one write after the other. This is the library's
`Port.post_gives` with the bytes written for the relation between the states. -/
theorem post_writes (i : Slot) (evs : List Event) {w : Users} (hs : (w i).sock ≠ .stale) :
    Gives ((port net i).post w evs) fun w' =>
      ∃ sock, w' = w.put i { w i with sock := sock } ∧ Writes (posted evs) (w i).sock sock := by
  let W : List UInt8 → Users → Users → Prop := fun bytes w w' =>
    ∃ sock, w' = w.put i { w i with sock := sock } ∧ Writes bytes (w i).sock sock
  have htrans : ∀ {as bs : List UInt8} {w w' w'' : Users}, W as w w' → W bs w' w'' →
      W (as ++ bs) w w'' := by
    rintro as bs w w' w'' ⟨sock, rfl, hone⟩ ⟨sock', rfl, htwo⟩
    rw [Users.put_self] at htwo
    exact ⟨sock', by simp [Users.put], hone.trans htwo⟩
  have hrefl : ∀ w : Users, (w i).sock ≠ .stale → W [] w w :=
    fun w hs => ⟨(w i).sock, (Function.update_eq_self ..).symm, Writes.refl hs⟩
  have hsend : ∀ (w : Users) (bytes : List UInt8), (w i).sock ≠ .stale →
      Gives (on_send net i w bytes) fun w' => (w' i).sock ≠ .stale ∧ W bytes w w' := by
    intro w bytes hs
    refine (on_send_writes hnet hs bytes).mono fun w' hw' => ⟨?_, hw'⟩
    obtain ⟨sock, rfl, hwrites⟩ := hw'
    rw [Users.put_self]
    exact hwrites.not_stale
  exact (Port.post_gives (port net i) (W := W) htrans hrefl hsend evs hs).mono
    fun w' hw' => hw'.2

/-- What a sender says is on the screen of the user it is sent to. -/
theorem post_shows (h : Shows P w r) (i : Slot) {evs : List Event} {xs : List Shown}
    (hu : Utters (posted evs) (written xs)) :
    Gives ((port net i).post w evs) fun w' => Shows P w' (r.put i ((r i).add xs)) := by
  refine (post_writes hnet i evs (h.stale i)).mono fun w' ⟨sock, hw', hwrites⟩ => ?_
  rw [hw']
  exact h.writes hwrites hu

theorem printf_shows (h : Shows P w r) (i : Slot) (x : Shown) :
    Gives (printf net i w x.text) fun w' => Shows P w' (r.put i ((r i).add [x])) := by
  apply post_shows hnet h
  rw [written, List.flatMap_singleton]
  exact utters_printf x.text

/-- Option commands do not show: the tracker's table changes, a command goes
out, and the reader does not see it. -/
theorem negotiate_shows (h : Shows P w r) {i : Slot}
    (hP : ∀ c u u', P i c u → Retabled u u' → P i c u')
    {cmd : UInt8} (hcmd : IsVerb cmd) (telopt : UInt8) :
    Gives (negotiate net i w cmd telopt) fun w' => Shows P w' r := by
  obtain ⟨htab, hraised⟩ := telnet_negotiate_bargains (w i).telnet hcmd telopt
  have hput :
      Shows P (w.put i { w i with telnet := (telnet_negotiate (w i).telnet cmd telopt).1 }) r := by
    rw [← Room.put_same r i]
    exact h.put ⟨(h i).name, (h i).linebuf, hP _ _ _ (h i).telnet htab, (h i).sock⟩
  have hutters : Utters (posted (telnet_negotiate (w i).telnet cmd telopt).2) (written []) :=
    utters_raised _ hraised
  refine (post_shows hnet hput i hutters).mono fun w' hw' => ?_
  rw [Seat.add_nil, Room.put_same] at hw'
  exact hw'

/-- **A message is on every screen.** The server's loop runs over all slots and
the room's step is over all seats; the free ones drop it on both sides. -/
theorem message_shows (h : Shows P w r) (user msg : CString) :
    Gives (message net w user msg) fun w' => Shows P w' (r.say user msg) := by
  rw [← Room.foldl_add r user msg]
  refine Gives.foldlM _ (fun w r i _ h => ?_) h
  split
  · exact printf_shows hnet h i (.all user msg)
  · next hv =>
      have ht : (r i).taken = false := by
        rw [← (h i).sock.valid]
        simpa using hv
      have hsame : (r i).add [.all user msg] = r i := by simp [Seat.add, ht]
      rw [hsame, Room.put_same]
      exact gives_ok h

/-- A goodbye: all who are still there are told under his name, and then the
name is given up. Whether he is told himself is decided before, where his socket
is closed. -/
theorem farewell_shows (h : Shows P w r) (i : Slot) (msg : CString) :
    Gives (farewell net i w msg) fun w' => Shows P w' (r.farewell i msg) := by
  have hname := (h i).name
  rw [farewell, Room.farewell, hname]
  cases (r i).name with
  | none => exact gives_ok h
  | some name =>
      refine Gives.map ((message_shows hnet h name msg).mono fun w' h' => ?_)
      have hi : Seated (P i) { w' i with name := none } { r.say name msg i with name := none } :=
        ⟨rfl, (h' i).linebuf, (h' i).telnet, (h' i).sock⟩
      exact h'.put hi

/-- The first line of a user, in its three outcomes: not a name, a name in use,
a name. The server and the room decide by the same comparisons. -/
theorem login_shows (h : Shows P w r) (i : Slot) (line : CString) :
    Gives (login net i w line) fun w' => Shows P w' (r.login i line) := by
  have huse : (∃ j, (w j).name = some line) ↔ ∃ j, (r j).name = some line :=
    exists_congr fun j => by rw [(h j).name]
  simp only [login, Room.login, huse]
  split_ifs
  · exact printf_shows hnet h i (.alone _)
  · exact printf_shows hnet h i (.alone _)
  · have hput :
        Shows P (w.put i { w i with name := some line }) (r.put i { r i with name := some line }) :=
      h.put ⟨rfl, (h i).linebuf, (h i).telnet, (h i).sock⟩
    exact printf_shows hnet hput i (.alone _)

omit hnet in
/-- The socket is closed, and the seat is free. What was on the screen stays on
it. -/
theorem Shows.close (h : Shows P w r) (i : Slot) :
    Shows P (w.put i { w i with sock := .none }) (r.put i { r i with taken := false }) :=
  h.put ⟨(h i).name, (h i).linebuf, (h i).telnet, rfl⟩

/-- **A line of a user**, whatever it is, does to the table what it does to the
room. -/
theorem online_shows (h : Shows P w r) (i : Slot) (line : CString) :
    Gives (online net i w line) fun w' => Shows P w' (r.hear i line) := by
  have hname := (h i).name
  rw [online, Room.hear, hname]
  cases (r i).name with
  | none => exact login_shows hnet h i line
  | some name =>
      simp only
      split
      · exact farewell_shows hnet (h.close i) i has_quit
      · exact message_shows hnet h name line

/-- Characters, as the line buffer takes them: most wait, some end a line. The
induction is on the characters, both sides holding the same line so far. -/
theorem input_shows (h : Shows P w r) (i : Slot) (buffer : List UInt8) :
    Gives (input net i w buffer) fun w' => Shows P w' (buffer.foldl (Room.type i) r) := by
  refine Gives.foldlM buffer (fun w r ch _ h => ?_) h
  have hbuf := (h i).linebuf
  have hput : Shows P (w.put i { w i with linebuf := (linebuffer_push (r i).linebuf ch).1 })
      (r.put i { r i with linebuf := (linebuffer_push (r i).linebuf ch).1 }) :=
    h.put ⟨(h i).name, rfl, (h i).telnet, (h i).sock⟩
  simp only [Room.type, hbuf]
  exact Gives.foldlM (g := fun r (l : Line) => r.hear i l.line) (R := Shows P) _
    (fun w r l _ h => online_shows hnet h i l.line) hput

/-- An event from a user's own stream. Only text has a meaning for the room; an
option command is answered and no one sees it. -/
theorem event_handler_shows (h : Shows P w r) {i : Slot}
    (hP : ∀ c u u', P i c u → Retabled u u' → P i c u') {ev : Event} (hev : ev.Raised) :
    Gives (event_handler net i w ev) fun w' =>
      Shows P w' ((delivered [ev]).foldl (Room.type i) r) := by
  cases ev with
  | DATA buffer =>
      have hdata : delivered [.DATA buffer] = buffer := List.append_nil _
      rw [hdata]
      refine (input_shows hnet h i buffer).bind fun w' h' => ?_
      refine (negotiate_shows hnet h' hP (Or.inr (Or.inl rfl)) _).bind fun w'' h'' => ?_
      exact negotiate_shows hnet h'' hP (Or.inl rfl) _
  | SEND bytes =>
      obtain ⟨cmd, telopt, hcmd, rfl⟩ := hev
      refine (on_send_writes hnet (h.stale i) _).mono fun w' ⟨sock, hw', hwrites⟩ => ?_
      have hutters : Utters [TELNET_IAC, cmd, telopt] (written []) := utters_command hcmd telopt
      have hshows := h.writes hwrites hutters
      rw [Seat.add_nil, Room.put_same] at hshows
      rw [hw']
      exact hshows
  | ERROR msg => exact absurd hev id
  | OVERREAD bytes => exact absurd hev id
  | _ => exact gives_ok h

end Shows

/-! ## 5. A block, a newcomer, a leaver -/

/-- The table shows the room, and the trackers of the two parse alike. -/
abbrev InRoom (w : Users) (r : Room) : Prop := Shows (fun _ => SameParse) w r

section InRoom

variable {w : Users} {r : Room} {net : Slot → Net} (hnet : ∀ i, Flows (net i))
include hnet

omit w r in
/-- The handler keeps step with the seat, character by character. The tracker of
the user being served is left out of the relation while `telnet_recv` is
running, for it is only put back at the end. -/
theorem app_simulates (i : Slot) :
    (app net i).Simulates (Shows fun j c u => j ≠ i → SameParse c u) (Room.type i) where
  telnet_put := fun w t => by simp [app, port]
  put := by
    intro w r t h
    change Shows _ (w.put i { w i with telnet := t }) r
    rw [← Room.put_same r i]
    exact h.put ⟨(h i).name, (h i).linebuf, fun hi => absurd rfl hi, (h i).sock⟩
  handle := by
    intro w r ev hev h
    -- besides, the user's own tracker is the one he had, up to the table
    have hown :
        Shows (fun j c u => (j ≠ i → SameParse c u) ∧ (j = i → Retabled (w i).telnet u)) w r :=
      h.retelnet fun j => ⟨(h j).telnet, by rintro rfl; exact Retabled.refl _⟩
    refine (event_handler_shows hnet hown ?_ hev).mono fun w' h' => ⟨?_, ?_⟩
    · exact fun c u u' ⟨_, hu⟩ hu' => ⟨fun hi => absurd rfl hi, fun _ => (hu rfl).trans hu'⟩
    · exact h'.retelnet fun j => (h' j).telnet.1
    · exact (h' i).telnet.2 rfl

/-- **A block of bytes** that is clear, that is one over whose end the library
does not read. Then the server comes out of `telnet_recv` and shows the room in
which the user typed the block. -/
theorem recv_shows (h : InRoom w r) (i : Slot) {buffer : List UInt8}
    (hclear : Clear ((r i).telnet, false) buffer) :
    Gives ((app net i).telnet_recv w buffer) fun w' => InRoom w' (r.receive i buffer) := by
  have hothers : Shows (fun j c u => j ≠ i → SameParse c u) w r :=
    h.retelnet fun j _ => (h j).telnet
  have hrecv := (app_simulates hnet i).telnet_recv (h i).telnet hothers hclear
  refine hrecv.mono fun w' ⟨h', hp⟩ => ?_
  rw [Room.receive]
  intro j
  by_cases hj : j = i
  · subst hj
    simp only [Room.put_self]
    exact ⟨(h' j).name, (h' j).linebuf, hp, (h' j).sock⟩
  · simp only [Room.put_of_ne hj]
    exact ⟨(h' j).name, (h' j).linebuf, (h' j).telnet hj, (h' j).sock⟩

/-- And one that is not: the last event of the block is given a size that has
wrapped, and the server reads on behind it (`libtelnet.c` 1042 and 1115 to
1121). -/
theorem recv_overreads (h : InRoom w r) (i : Slot) {buffer : List UInt8}
    (hclear : ¬ Clear ((r i).telnet, false) buffer) :
    (app net i).telnet_recv w buffer = .error .overread := by
  have hothers : Shows (fun j c u => j ≠ i → SameParse c u) w r :=
    h.retelnet fun j _ => (h j).telnet
  exact (app_simulates hnet i).telnet_recv_overread (fun _ _ => rfl) (h i).telnet hothers hclear

/-- A newcomer takes the seat: he is asked for his name and sees nothing of what
was said before. -/
theorem welcome_shows (h : InRoom w r) (i : Slot) :
    Gives (welcome net i w) fun w' => InRoom w' (r.enter i) := by
  have hparse : ∀ c u u' : Telnet, SameParse c u → Retabled u u' → SameParse c u' :=
    fun c u u' hp hu => hp.retabled hu
  have hinit : Sized (telnet_init telopts 0) := ⟨Nat.le_refl 0, List.mem_cons_self ..⟩
  have hput : InRoom (w.put i { w i with sock := .live {}, telnet := telnet_init telopts 0 })
      (r.put i { r i with taken := true, screen := [], telnet := telnet_init telopts 0 }) :=
    h.put ⟨(h i).name, (h i).linebuf, SameParse.refl hinit, rfl, utters_nil⟩
  refine (negotiate_shows hnet hput hparse (Or.inl rfl) _).bind fun w' h' => ?_
  refine (printf_shows hnet h' i (.alone (ascii "Enter name: "))).bind fun w'' h'' => ?_
  exact negotiate_shows hnet h'' hparse (Or.inl rfl) _

omit hnet in
/-- The server looks for the first slot without a socket, the room for the first
free seat. -/
theorem free_eq (h : InRoom w r) : free w = r.free := by
  have hvalid : (fun i => !(w i).sock.valid) = fun i => !(r i).taken := by
    funext i
    rw [(h i).sock.valid]
  rw [free, Room.free, hvalid]

omit hnet in
/-- Somebody without a name is gone. Nobody is told, so the freed descriptor is
not used again; for one with a name it is (`disconnect_fails`). -/
theorem disconnect_shows (h : InRoom w r) {i : Slot} (hname : (w i).name = none) :
    Gives (disconnect net i w) fun w' => InRoom w' (r.leave i) := by
  have hfare : farewell net i (w.put i { w i with sock := .stale }) has_disconnected
      = .ok (w.put i { w i with sock := .stale }) := by
    simp only [farewell, Users.put_self, hname]
    rfl
  have hleave : r.leave i = r.put i { r i with taken := false } := by
    have hr : (r i).name = none := (h i).name.symm.trans hname
    simp only [Room.leave, Room.farewell, Room.put_self, hr]
  rw [disconnect, hfare, hleave]
  refine gives_ok ?_
  have hclose := h.close i
  simpa [Users.put] using hclose

end InRoom

end AutoMag.Chatd
