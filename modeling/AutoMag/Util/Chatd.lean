/-
`Util/Chatd.lean` -- `telnet-chatd.c`, the chat server.

A table of 64 users, each with a libtelnet tracker, a line buffer and, once logged in, a
name. One `poll` loop takes new connections and reads the others in turn; a line either logs
its user in, says something to everybody, or quits. What the program prints is left out, and
what `send()` and `recv()` do is a parameter.

A few things are as the source has them and perhaps not as it was meant. A connection that
finds the table full is turned away and then written behind the end of the table. A user who
is gone leaves his half line, and sometimes a name, to the next one on his slot. When a user
with a name hangs up, the message about it goes to his closed socket too. And a block that
ends where the library is about to discard a byte is read far behind its end.
-/
import AutoMag.Client.Handler
import AutoMag.Libtelnet.Inline
import AutoMag.Util.LineBuffer
import AutoMag.Util.Sockets

set_option autoImplicit false

namespace AutoMag.Chatd

open AutoMag.Client (ascii)
open AutoMag.Fallible AutoMag.Libtelnet AutoMag.Util

/-! ## 1. The table -/

abbrev MAX_USERS : ℕ := 64

/-- The size of `linebuf`; the source writes the number there. -/
abbrev LINEBUFFER_SIZE : ℕ := 256

def telopts : List Telopt := [⟨TELNET_TELOPT_COMPRESS2, TELNET_WILL, TELNET_DONT⟩]

/-- A descriptor: -1, an open socket, or a number that was closed. -/
inductive Sock where
  | none
  | live (s : Socket)
  | stale

/-- `sock != -1`. -/
def Sock.valid : Sock → Bool
  | .none => false
  | _ => true

/-- `struct user_t`. The tracker of a user who is not connected is not used. -/
structure User where
  name : Option CString := none
  sock : Sock := .none
  telnet : Telnet := telnet_init telopts 0
  linebuf : LineBuffer LINEBUFFER_SIZE := .clear _

abbrev Slot : Type := Fin MAX_USERS

/-- `users`. -/
abbrev Users : Type := Slot → User

/-- As `main` initializes it. -/
def Users.init : Users := fun _ => {}

def Users.put (w : Users) (i : Slot) (u : User) : Users := Function.update w i u

/-! ## 2. Sending -/

/-- `_send`. -/
def send (net : Net) (sock : Sock) (buffer : List UInt8) : Except Stop Sock :=
  match sock with
  -- ignore on invalid socket
  | .none => return .none
  | .live s => .live <$> Util.send net s buffer
  | .stale =>
    (fun _ => .stale) <$> Util.send (fun _ _ => .error (.other "Bad file descriptor")) {} buffer

/-- `case TELNET_EV_SEND` of the handler. -/
def on_send (net : Slot → Net) (i : Slot) (w : Users) (bytes : List UInt8) : Except Stop Users := do
  let sock ← send (net i) (w i).sock bytes
  return w.put i { w i with sock := sock }

/-- The user's tracker, for the senders of the library. -/
def port (net : Slot → Net) (i : Slot) : Port Users Stop where
  telnet := fun w => (w i).telnet
  put := fun w t => w.put i { w i with telnet := t }
  send := on_send net i

/-- `telnet_printf` on the user's tracker, once the text is formatted. -/
def printf (net : Slot → Net) (i : Slot) (w : Users) (output : List UInt8) : Except Stop Users :=
  (port net i).post w (telnet_printf output)

/-- `telnet_negotiate` on the user's tracker. -/
def negotiate (net : Slot → Net) (i : Slot) (w : Users) (cmd telopt : UInt8) : Except Stop Users :=
  (port net i).negotiate w cmd telopt

/-- The text of a message. -/
def said (user msg : CString) : List UInt8 := user.bytes ++ ascii ": " ++ msg.bytes ++ ascii "\n"

/-- `_message`. -/
def message (net : Slot → Net) (w : Users) (user msg : CString) : Except Stop Users :=
  (List.finRange MAX_USERS).foldlM (fun w i =>
    if (w i).sock.valid then printf net i w (said user msg) else return w) w

/-! ## 3. `_online` and `_event_handler` -/

def has_quit : CString := ⟨ascii "** HAS QUIT **", by decide⟩
def has_had_an_error : CString := ⟨ascii "** HAS HAD AN ERROR **", by decide⟩
def has_disconnected : CString := ⟨ascii "** HAS DISCONNECTED **", by decide⟩

/-- The login: a user without a name sent a line. -/
def login (net : Slot → Net) (i : Slot) (w : Users) (line : CString) : Except Stop Users :=
  if line.bytes.length = 0 ∨ 32 < line.bytes.length then
    printf net i w (ascii "Invalid name.\nEnter name: ")
  -- must not already be in use
  else if ∃ j, (w j).name = some line then printf net i w (ascii "Name in use.\nEnter name: ")
  else printf net i (w.put i { w i with name := some line })
    (ascii "Welcome, " ++ line.bytes ++ ascii "!\n")

/-- A user who has a name goes: everybody is told, and the name is free
again. -/
def farewell (net : Slot → Net) (i : Slot) (w : Users) (msg : CString) : Except Stop Users :=
  match (w i).name with
  | none => return w
  | some name => (fun w => w.put i { w i with name := none }) <$> message net w name msg

/-- `_online`; it does not look at `overflow`. -/
def online (net : Slot → Net) (i : Slot) (w : Users) (line : CString) : Except Stop Users :=
  match (w i).name with
  | none => login net i w line
  | some name =>
      -- closed first, so the message does not go to him
      if line.bytes = ascii "quit" then farewell net i (w.put i { w i with sock := .none }) has_quit
      else message net w name line

/-- `_input`. -/
def input (net : Slot → Net) (i : Slot) (w : Users) (buffer : List UInt8) : Except Stop Users :=
  buffer.foldlM (fun w ch =>
    let r := linebuffer_push (w i).linebuf ch
    r.2.foldlM (fun w l => online net i w l.line) (w.put i { w i with linebuf := r.1 })) w

/-- `_event_handler`. Without zlib `telnet_begin_compress2` does nothing. -/
def event_handler (net : Slot → Net) (i : Slot) (w : Users) (ev : Event) : Except Stop Users :=
  match ev with
  | .DATA buffer => do
      let w ← input net i w buffer
      let w ← negotiate net i w TELNET_WONT TELNET_TELOPT_ECHO
      negotiate net i w TELNET_WILL TELNET_TELOPT_ECHO
  -- the loop of `_input` takes the size for an `unsigned int`, and 4 GB of bytes
  | .OVERREAD _ => throw .overread
  | .SEND buffer => on_send net i w buffer
  | .ERROR _ => farewell net i (w.put i { w i with sock := .none }) has_had_an_error
  | _ => return w

/-! ## 4. The loop of `main` -/

/-- `telnet_recv` on the user's tracker, with the handler called from inside. -/
def app (net : Slot → Net) (i : Slot) : App Users Stop :=
  { port net i with handle := event_handler net i }

/-- The first free user. -/
def free (w : Users) : Option Slot := (List.finRange MAX_USERS).find? fun i => !(w i).sock.valid

/-- Init, welcome. The name and the line buffer stay as they are. -/
def welcome (net : Slot → Net) (i : Slot) (w : Users) : Except Stop Users := do
  let w := w.put i { w i with sock := .live {}, telnet := telnet_init telopts 0 }
  let w ← negotiate net i w TELNET_WILL TELNET_TELOPT_COMPRESS2
  let w ← printf net i w (ascii "Enter name: ")
  negotiate net i w TELNET_WILL TELNET_TELOPT_ECHO

/-- A new connection; `rejected` is its network if there is no place for it. -/
def accept (net : Slot → Net) (rejected : Net) (w : Users) : Except Stop Users :=
  match free w with
  | some i => welcome net i w
  | none => do
      -- 14 bytes of the text
      let _ ← Util.send rejected {} ((ascii "Too many users.\r\n").take 14)
      -- and `users[MAX_USERS]` is written
      throw .overrun

/-- `recv()` returned 0. The socket is closed, and not yet -1, when the message
is sent. -/
def disconnect (net : Slot → Net) (i : Slot) (w : Users) : Except Stop Users :=
  (fun w => w.put i { w i with sock := .none })
    <$> farewell net i (w.put i { w i with sock := .stale }) has_disconnected

/-- `strerror`. -/
def strerror : Errno → String
  | .EINTR => "Interrupted system call"
  | .ECONNRESET => "Connection reset by peer"
  | .other text => text

/-- One pass of the loop: a new connection, and what `recv()` returns for each
user `poll` found ready; and what `send()` does meanwhile. -/
structure Pass where
  net : Slot → Net
  connection : Option Net
  ready : Slot → Option Received

/-- The loop "read from client" over the remaining slots. -/
def serve (x : Pass) : List Slot → Users → Except Stop Users
  | [], w => return w
  | i :: is, w =>
      -- skip users that aren't actually connected
      if (w i).sock.valid then
        match x.ready i with
        | none => serve x is w
        | some (.block buffer) => do
            let w ← (app x.net i).telnet_recv w buffer
            serve x is w
        -- and `break`
        | some .closed => disconnect x.net i w
        | some (.error .EINTR) => serve x is w
        | some (.error errno) => throw (.exit ("recv(client) failed: " ++ strerror errno ++ "\n"))
      else serve x is w

def new_connection (x : Pass) (w : Users) : Except Stop Users :=
  match x.connection with
  | none => return w
  | some rejected => accept x.net rejected w

/-- The body of the loop. -/
def pass (w : Users) (x : Pass) : Except Stop Users := do
  let w ← new_connection x w
  serve x (List.finRange MAX_USERS) w

/-- The program. -/
inductive Stage where
  | up (w : Users)
  | down (stop : Stop)

inductive Input where
  | poll (x : Pass)
  -- `poll()` or `accept()` failed, and `main` returned 1
  | failed (stderr : String)

def Stage.step : Stage → Input → Stage
  | .up w, .poll x =>
      match pass w x with
      | .ok w => .up w
      | .error stop => .down stop
  | .up _, .failed text => .down (.exit text)
  | .down stop, _ => .down stop

def start : Stage := .up .init

/-! ## 5. Nobody has another one's name -/

@[simp] theorem Users.put_self (w : Users) (i : Slot) (u : User) : w.put i u i = u :=
  Function.update_self ..

theorem Users.put_of_ne {i j : Slot} (h : j ≠ i) (w : Users) (u : User) : w.put i u j = w j :=
  Function.update_of_ne h ..

/-- The names are 1 to 32 bytes long, and different. -/
structure Named (w : Users) : Prop where
  length : ∀ i name, (w i).name = some name → 1 ≤ name.bytes.length ∧ name.bytes.length ≤ 32
  unique : ∀ i j name, (w i).name = some name → (w j).name = some name → i = j

/-- Whoever has a name still has it, and nobody has a new one. -/
def SameNames (w w' : Users) : Prop := ∀ j, (w' j).name = (w j).name

theorem SameNames.trans {w w' w'' : Users} (h : SameNames w w') (h' : SameNames w' w'') :
    SameNames w w'' :=
  fun j => (h' j).trans (h j)

/-- Whatever is written about a user, the names stay if his own does. Every
function below but `login` and the two goodbyes comes down to this. -/
theorem SameNames.put {w : Users} {i : Slot} {u : User} (h : u.name = (w i).name) :
    SameNames w (w.put i u) := by
  intro j
  by_cases hj : j = i
  · subst hj
    rw [Users.put_self]
    exact h
  · rw [Users.put_of_ne hj]

/-- `Named` looks at nothing but the names, so what leaves them alone leaves it
alone too. -/
theorem Named.same {w w' : Users} (h : Named w) (hs : SameNames w w') : Named w' :=
  ⟨fun i name hi => h.length i name ((hs i).symm.trans hi),
    fun i j name hi hj => h.unique i j name ((hs i).symm.trans hi) ((hs j).symm.trans hj)⟩

/-- The same behind a call that may end the program: where it returns, the names
are as they were. -/
theorem Named.ensures {w : Users} {ε : Type} {x : Except ε Users} (h : Named w)
    (hx : Ensures x (SameNames w)) :
    Ensures x Named := fun w' hw => h.same (hx w' hw)

/-- Anything else about a user: his line so far, his socket, his tracker. -/
theorem Named.put {w : Users} (h : Named w) (i : Slot) {u : User} (hu : u.name = (w i).name) :
    Named (w.put i u) := h.same (SameNames.put hu)

/-- A name given up. One claim on a name less, so the others' names stay valid
and apart from each other. -/
theorem Named.forget {w : Users} (h : Named w) (i : Slot) :
    Named (w.put i { w i with name := none }) := by
  have hback : ∀ j name, (w.put i { w i with name := none } j).name = some name →
      (w j).name = some name := by
    intro j name hj
    by_cases hji : j = i
    · subst hji
      rw [Users.put_self] at hj
      cases hj
    · rw [Users.put_of_ne hji] at hj
      exact hj
  exact ⟨fun j name hj => h.length j name (hback j name hj),
    fun j k name hj hk => h.unique j k name (hback j name hj) (hback k name hk)⟩

/-- A name nobody has, and of a length `_online` lets through. This is the one
place where a name comes into the table, and both hypotheses are what lines 138
to 149 check before it is stored. -/
theorem Named.take {w : Users} (h : Named w) (i : Slot) {name : CString}
    (hlen : 1 ≤ name.bytes.length ∧ name.bytes.length ≤ 32) (hnew : ∀ j, (w j).name ≠ some name) :
    Named (w.put i { w i with name := some name }) := by
  have hwho : ∀ j n, (w.put i { w i with name := some name } j).name = some n →
      (j = i ∧ n = name) ∨ (j ≠ i ∧ (w j).name = some n) := by
    intro j n hj
    by_cases hji : j = i
    · subst hji
      rw [Users.put_self] at hj
      exact Or.inl ⟨rfl, (Option.some.inj hj).symm⟩
    · rw [Users.put_of_ne hji] at hj
      exact Or.inr ⟨hji, hj⟩
  constructor
  · intro j n hj
    rcases hwho j n hj with ⟨-, rfl⟩ | ⟨-, hold⟩
    · exact hlen
    · exact h.length j n hold
  · intro j k n hj hk
    rcases hwho j n hj with ⟨rfl, rfl⟩ | ⟨-, hold⟩ <;>
      rcases hwho k n hk with ⟨rfl, hn⟩ | ⟨-, hold'⟩
    · rfl
    · exact absurd hold' (hnew k)
    · rw [hn] at hold
      exact absurd hold (hnew j)
    · exact h.unique j k n hold hold'

variable (net : Slot → Net) (i : Slot)

/-- The `SEND` case of the handler: only the socket is touched. -/
theorem on_send_names (w : Users) (bytes : List UInt8) :
    Ensures (on_send net i w bytes) (SameNames w) := by
  refine Ensures.bind (Q := fun _ => True) (fun _ _ => trivial) fun sock _ => ?_
  exact ensures_ok (SameNames.put rfl)

/-- Sending has nothing to do with the names. A sender's events are handled one
after the other, each leaving them as they were. -/
theorem post_names (w : Users) (evs : List Event) :
    Ensures ((port net i).post w evs) (SameNames w) :=
  Port.post_ensures (fun w' bytes h w'' hw => h.trans (on_send_names net i w' bytes w'' hw)) evs
    fun _ => rfl

/-- A reply to an option command changes the tracker and is sent; the names are
in neither. -/
theorem negotiate_names (w : Users) (cmd telopt : UInt8) :
    Ensures (negotiate net i w cmd telopt) (SameNames w) := by
  intro w' hw
  have hput : SameNames w (w.put i { w i with
      telnet := (telnet_negotiate (w i).telnet cmd telopt).1 }) := SameNames.put rfl
  exact hput.trans (post_names net i _ _ w' hw)

/-- A message goes to all users in turn, which is `post_names` once for each
slot. -/
theorem message_names (w : Users) (user msg : CString) :
    Ensures (message net w user msg) (SameNames w) := by
  refine Ensures.foldlM _ (fun w' j _ h => ?_) (fun _ => rfl)
  split
  · exact fun w'' hw => h.trans (post_names net j w' _ w'' hw)
  · exact ensures_ok h

variable {w : Users} (h : Named w)
include h

/-- The login: the line is turned away or it becomes the name of a user who had
none. The two checks before it are just the hypotheses of `Named.take`. -/
theorem login_named (line : CString) : Ensures (login net i w line) Named := by
  unfold login
  split_ifs with hlen huse
  · exact h.ensures (post_names net i w _)
  · exact h.ensures (post_names net i w _)
  · have hnew : ∀ j, (w j).name ≠ some line := fun j hj => huse ⟨j, hj⟩
    have hlen' : 1 ≤ line.bytes.length ∧ line.bytes.length ≤ 32 := by omega
    have htake := h.take i hlen' hnew
    exact htake.ensures (post_names net i _ _)

/-- A goodbye: all are told, and then the name is given up. -/
theorem farewell_named (msg : CString) : Ensures (farewell net i w msg) Named := by
  unfold farewell
  split
  · exact ensures_ok h
  · exact Ensures.map fun w' hw => (h.same (message_names net w _ msg w' hw)).forget i

/-- **Any line**, whatever its bytes: a name, a message or `quit`. -/
theorem online_named (line : CString) : Ensures (online net i w line) Named := by
  unfold online
  split
  · exact login_named net i h line
  · split
    · exact farewell_named net i (h.put i (u := { w i with sock := .none }) rfl) _
    · exact h.ensures (message_names net w _ _)

/-- Any bytes: they make lines, and each line goes to `_online` in the state the
ones before it left. -/
theorem input_named (buffer : List UInt8) : Ensures (input net i w buffer) Named := by
  refine Ensures.foldlM buffer (fun w' ch _ h' => ?_) h
  exact Ensures.foldlM _ (fun w'' l _ h'' => online_named net i h'' l.line)
    (h'.put i (u := { w' i with linebuf := (linebuffer_push (w' i).linebuf ch).1 }) rfl)

/-- **Any event of the library.** Text may hold a login and an error is a
goodbye; all other events leave the names alone. -/
theorem event_handler_named (ev : Event) : Ensures (event_handler net i w ev) Named := by
  cases ev with
  | DATA buffer =>
      refine (input_named net i h buffer).bind fun w' h' => ?_
      refine (h'.ensures (negotiate_names net i w' _ _)).bind fun w'' h'' => ?_
      exact h''.ensures (negotiate_names net i w'' _ _)
  | SEND buffer => exact h.ensures (on_send_names net i w buffer)
  | OVERREAD bytes => exact ensures_error _ _
  | ERROR msg => exact farewell_named net i (h.put i (u := { w i with sock := .none }) rfl) _
  | _ => exact ensures_ok h

/-- A newcomer is greeted and asked for his name. His slot keeps what it has,
and that is no name of anybody else. -/
theorem welcome_named : Ensures (welcome net i w) Named := by
  have hput := h.put i (u := { w i with sock := .live {}, telnet := telnet_init telopts 0 }) rfl
  refine (hput.ensures (negotiate_names net i _ _ _)).bind fun w' h' => ?_
  refine (h'.ensures (post_names net i w' _)).bind fun w'' h'' => ?_
  exact h''.ensures (negotiate_names net i w'' _ _)

/-- A user whose stream ended says goodbye as one who typed `quit` does, only
that the message is sent before his slot is marked free. -/
theorem disconnect_named : Ensures (disconnect net i w) Named := by
  refine Ensures.map fun w' hw => ?_
  have hput := h.put i (u := { w i with sock := .stale }) rfl
  exact (farewell_named net i hput _ w' hw).put i (u := { w' i with sock := .none }) rfl

omit i in
/-- A newcomer who finds a free slot is welcomed. One who finds none is the end
of the server (`users[MAX_USERS]` is written), so there is no table to speak
of. -/
theorem accept_named (rejected : Net) : Ensures (accept net rejected w) Named := by
  unfold accept
  split
  · exact welcome_named net _ h
  · exact Ensures.bind (Q := fun _ => True) (fun _ _ => trivial) fun _ _ => ensures_error _ _

omit net i h in
/-- The polls of all slots, in the order of the table. The induction is on the
slots still to be served, for any state the ones before left: one of them may
have changed a name in it. -/
theorem serve_named (x : Pass) (is : List Slot) :
    ∀ {w : Users}, Named w → Ensures (serve x is w) Named := by
  induction is with
  | nil => exact fun h => ensures_ok h
  | cons i is ih =>
      intro w h
      have hput : ∀ (w : Users) (t : Telnet), Named w → Named ((app x.net i).put w t) :=
        fun w t h => h.put i (u := { w i with telnet := t }) rfl
      unfold serve
      split
      · split
        · exact ih h
        · have hrecv :=
            App.telnet_recv_ensures hput (fun w ev h => event_handler_named x.net i h ev) h
          exact (hrecv _).bind fun w' h' => ih h'
        · exact disconnect_named x.net i h
        · exact ih h
        · exact ensures_error _ _
      · exact ih h

omit net i in
/-- **One pass of the loop** keeps it: the listening socket first, then the
slots. -/
theorem pass_named (x : Pass) : Ensures (pass w x) Named := by
  have haccept : Ensures (new_connection x w) Named := by
    unfold new_connection
    split
    · exact ensures_ok h
    · exact accept_named x.net h _
  exact haccept.bind fun w' h' => serve_named x _ h'

end AutoMag.Chatd
