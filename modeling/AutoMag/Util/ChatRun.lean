/-
`Util/ChatRun.lean` -- the runs of the chat server.

On working connections a run is *orderly* as long as nobody comes to a full table, nobody
with a name hangs up, and no block is cut where the library discards a byte. An orderly run
shows the room: each user reads on his connection what the room has on his screen, whatever
telnet program he reads it with (`server_shows_room`). All other runs end the server
(`server_up_iff`). In every run, on any network, the names are different (`names_unique`).
-/
import AutoMag.Util.ChatRoom

set_option autoImplicit false

namespace AutoMag.Chatd

open AutoMag.Client (ascii)
open AutoMag.Fallible AutoMag.Libtelnet AutoMag.Machine AutoMag.Util
open AutoMag.Sending (Flows)

/-! ## 1. What ends the server -/

/-- A pass in which no call fails. -/
structure Pass.Works (x : Pass) : Prop where
  net : ∀ i, Flows (x.net i)
  connection : ∀ rejected, x.connection = some rejected → Flows rejected
  ready : ∀ i errno, x.ready i = some (.error errno) → errno = .EINTR

/-- What the loop "read from client" finds on a slot when it begins: whether
somebody is there, under which name, and how far his stream is parsed. -/
structure Guest where
  here : Bool
  name : Option CString
  telnet : Telnet

/-- Whoever was connected before the pass, or has just come. -/
def Pass.guest (x : Pass) (w : Users) (i : Slot) : Guest :=
  if (w i).sock.valid then ⟨true, (w i).name, (w i).telnet⟩
  else ⟨x.connection.isSome && free w = some i, (w i).name, telnet_init telopts 0⟩

/-- What is received from him lets the loop go on, to the rest of the slots, or
end as it should: a block is clear, and whoever has hung up had no name. -/
def Guest.Calm (g : Guest) (rest : Prop) : Option Received → Prop
  | some (.block buffer) => Clear (g.telnet, false) buffer ∧ rest
  | some .closed => g.name = none
  | _ => rest

/-- The loop over these slots comes to its end, which is the first guest who has
hung up, if there is one. -/
def Pass.Calm (x : Pass) (guest : Slot → Guest) : List Slot → Prop
  | [] => True
  | i :: is =>
      if (guest i).here then (guest i).Calm (x.Calm guest is) (x.ready i) else x.Calm guest is

/-- Nobody comes to a full table, and the loop comes to its end. -/
structure Orderly (w : Users) (x : Pass) : Prop where
  room : x.connection.isSome → (free w).isSome
  calm : x.Calm (x.guest w) (List.finRange MAX_USERS)

/-- What `_send` writes to stderr when the socket is closed. -/
def bad_file_descriptor : String := "send() failed: Bad file descriptor\n"

/-- A closed socket takes nothing. `send` fails with EBADF, which is neither of
the two errors `_send` lets pass, so only an empty buffer gets through. -/
theorem on_send_stale (net : Slot → Net) {i : Slot} {w : Users} (hs : (w i).sock = .stale)
    (bytes : List UInt8) :
    on_send net i w bytes = if bytes = [] then .ok (w.put i { w i with sock := .stale })
      else .error (.exit bad_file_descriptor) := by
  rw [on_send, hs, send, Util.send, Sending.write]
  split <;> rfl

/-- So a sender that has something to send on such a socket is the end of the
process, at its first event that is not empty. -/
theorem post_stale (net : Slot → Net) (i : Slot) (evs : List Event) :
    ∀ {w : Users}, (w i).sock = .stale → posted evs ≠ [] →
    (port net i).post w evs = .error (.exit bad_file_descriptor) := by
  induction evs with
  | nil => exact fun _ h => absurd rfl h
  | cons ev evs ih =>
      intro w hs hne
      cases ev with
      | SEND bytes =>
          have hsend : (port net i).send w bytes = _ := on_send_stale net hs bytes
          rw [Port.post, List.foldlM_cons]
          cases bytes with
          | nil =>
              rw [if_pos rfl] at hsend
              simp only [hsend]
              exact ih (by rw [Users.put_self]) hne
          | cons b bytes =>
              rw [if_neg (List.cons_ne_nil b bytes)] at hsend
              simp only [hsend]
              rfl
      | _ => exact ih hs hne

/-- `telnet_printf` sends something for every text but the empty one. -/
theorem posted_printf_ne_nil {output : List UInt8} (h : output ≠ []) :
    posted (telnet_printf output) ≠ [] := by
  rw [posted_telnet_printf]
  cases output with
  | nil => exact absurd rfl h
  | cons b output =>
      obtain ⟨c, rest, hcons⟩ : ∃ c rest, network (b :: output) = c :: rest := by
        rw [network, List.flatMap_cons]
        split_ifs <;> exact ⟨_, _, rfl⟩
      rw [hcons, doubled_cons]
      split_ifs <;> simp

section Ends

variable {net : Slot → Net} (hnet : ∀ i, Flows (net i))
include hnet

/-- A message to a closed socket ends the process, after those before it in the
table had it. The induction is on the slots still to be told; the ones before
the closed socket only write, which keeps it closed and opens none. -/
theorem message_stale {i : Slot} (is : List Slot) (hi : i ∈ is) (text : List UInt8)
    (htext : text ≠ []) :
    ∀ {w : Users}, (w i).sock = .stale → (∀ j, j ≠ i → (w j).sock ≠ .stale) →
    is.foldlM (fun w j => if (w j).sock.valid then printf net j w text else return w) w
      = .error (.exit bad_file_descriptor) := by
  induction is with
  | nil => cases hi
  | cons j is ih =>
      intro w hs hrest
      rw [List.foldlM_cons]
      by_cases hj : j = i
      · subst hj
        have hfail : printf net j w text = .error (.exit bad_file_descriptor) :=
          post_stale net j _ hs (posted_printf_ne_nil htext)
        simp only [hs, Sock.valid, if_true, hfail]
        rfl
      · have hmem : i ∈ is := (List.mem_cons.mp hi).resolve_left fun h => hj h.symm
        split
        · obtain ⟨w', hok, sock, rfl, hwrites⟩ :=
            post_writes hnet j (telnet_printf text) (hrest j hj)
          have hstale := hwrites.not_stale
          rw [printf, hok]
          apply ih hmem
          · rw [Users.put_of_ne (Ne.symm hj)]
            exact hs
          · intro k hk
            by_cases hkj : k = j
            · subst hkj
              rw [Users.put_self]
              exact hstale
            · rw [Users.put_of_ne hkj]
              exact hrest k hk
        · exact ih hmem hs hrest

/-- **Somebody with a name hangs up**, and the message about it goes to his own
closed socket: lines 343 to 350 close it, send the message to all slots whose
socket is not -1, and set it to -1 only then. -/
theorem disconnect_fails {w : Users} {r : Room} (h : InRoom w r) {i : Slot}
    (hname : (w i).name ≠ none) :
    disconnect net i w = .error (.exit bad_file_descriptor) := by
  obtain ⟨name, hname⟩ := Option.ne_none_iff_exists'.mp hname
  have htext : said name has_disconnected ≠ [] := by simp [said, ascii]
  have hfail : message net (w.put i { w i with sock := .stale }) name has_disconnected
      = .error (.exit bad_file_descriptor) := by
    apply message_stale hnet _ (List.mem_finRange i) _ htext
    · rw [Users.put_self]
    · intro j hj
      rw [Users.put_of_ne hj]
      exact h.stale j
  have hsame : (w.put i { w i with sock := .stale } i).name = some name := by
    rw [Users.put_self]
    exact hname
  rw [disconnect, farewell, hsame]
  simp only [hfail]
  rfl

end Ends

/-! ## 2. The loop -/

def Seat.guest (s : Seat) : Guest := ⟨s.taken, s.name, s.telnet⟩

@[simp] theorem Seat.guest_here (s : Seat) : s.guest.here = s.taken := rfl
@[simp] theorem Seat.guest_name (s : Seat) : s.guest.name = s.name := rfl
@[simp] theorem Seat.guest_telnet (s : Seat) : s.guest.telnet = s.telnet := rfl

/-- A seat's own doings change nothing on the others but their screens. -/
def Apart (i : Slot) (r r' : Room) : Prop :=
  ∀ j, j ≠ i → (r' j).guest = (r j).guest ∧ (r' j).linebuf = (r j).linebuf

theorem Apart.refl (i : Slot) (r : Room) : Apart i r r := fun _ _ => ⟨rfl, rfl⟩

theorem Apart.trans {i : Slot} {r r' r'' : Room} (h : Apart i r r') (h' : Apart i r' r'') :
    Apart i r r'' :=
  fun j hj => ⟨(h' j hj).1.trans (h j hj).1, (h' j hj).2.trans (h j hj).2⟩

/-- Only his own seat is written. -/
theorem Apart.put (i : Slot) (r : Room) (s : Seat) : Apart i r (r.put i s) :=
  fun j hj => by rw [Room.put_of_ne hj]; exact ⟨rfl, rfl⟩

/-- What each step leaves alone, all of them leave alone. -/
theorem Apart.foldl {α : Type} {i : Slot} {f : Room → α → Room} (hf : ∀ r a, Apart i r (f r a))
    (as : List α) :
    ∀ r : Room, Apart i r (as.foldl f r) := by
  induction as with
  | nil => exact fun r => Apart.refl i r
  | cons a as ih => exact fun r => (hf r a).trans (ih _)

@[simp] theorem Seat.add_guest (s : Seat) (xs : List Shown) : (s.add xs).guest = s.guest := by
  unfold Seat.add
  split <;> rfl

@[simp] theorem Seat.add_linebuf (s : Seat) (xs : List Shown) :
    (s.add xs).linebuf = s.linebuf := by
  unfold Seat.add
  split <;> rfl

@[simp] theorem Seat.add_taken (s : Seat) (xs : List Shown) : (s.add xs).taken = s.taken :=
  congrArg Guest.here (s.add_guest xs)

@[simp] theorem Seat.add_name (s : Seat) (xs : List Shown) : (s.add xs).name = s.name :=
  congrArg Guest.name (s.add_guest xs)

@[simp] theorem Seat.add_telnet (s : Seat) (xs : List Shown) : (s.add xs).telnet = s.telnet :=
  congrArg Guest.telnet (s.add_guest xs)

/-- What is said is on everybody's screen, but a screen is no part of what the
loop looks at. -/
theorem Apart.say (i : Slot) (r : Room) (user msg : CString) : Apart i r (r.say user msg) :=
  fun _ _ => ⟨Seat.add_guest .., Seat.add_linebuf ..⟩

theorem Apart.farewell (i : Slot) (r : Room) (msg : CString) : Apart i r (r.farewell i msg) := by
  unfold Room.farewell
  split
  · exact Apart.refl i r
  · exact (Apart.say i r _ msg).trans (Apart.put i _ _)

/-- A line may name him, or make him leave: his own seat, and messages to the
others. -/
theorem Apart.hear (i : Slot) (r : Room) (line : CString) : Apart i r (r.hear i line) := by
  unfold Room.hear
  split
  · unfold Room.login
    split_ifs
    · exact Apart.put i r _
    · exact Apart.put i r _
    · exact (Apart.put i r _).trans (Apart.put i _ _)
  · split
    · exact (Apart.put i r _).trans (Apart.farewell i _ _)
    · exact Apart.say i r _ line

/-- **A block of his** changes nothing the loop will look at when it comes to
the others. -/
theorem Apart.receive (i : Slot) (r : Room) (buffer : List UInt8) :
    Apart i r (r.receive i buffer) := by
  have htype : ∀ (r : Room) (ch : UInt8), Apart i r (Room.type i r ch) :=
    fun r ch => (Apart.put i r _).trans
      (Apart.foldl (fun r (l : Line) => Apart.hear i r l.line) _ _)
  exact (Apart.foldl htype _ r).trans (Apart.put i _ _)

/-- Guests the loop treats alike. -/
structure Guest.Like (g g' : Guest) : Prop where
  here : g'.here = g.here
  name : g'.name = g.name
  clear : g.here = true → ∀ buffer, Clear (g'.telnet, false) buffer ↔ Clear (g.telnet, false) buffer

/-- Whether a pass is calm depends on who is there, who has a name, and where
their trackers are. -/
theorem calm_congr {x : Pass} {guest guest' : Slot → Guest} {is : List Slot}
    (h : ∀ i ∈ is, (guest i).Like (guest' i)) : x.Calm guest' is ↔ x.Calm guest is := by
  induction is with
  | nil => exact Iff.rfl
  | cons i is ih =>
      have hi := h i (List.mem_cons_self ..)
      have hrest := ih fun j hj => h j (List.mem_cons_of_mem _ hj)
      rw [Pass.Calm, Pass.Calm, hi.here]
      cases hhere : (guest i).here with
      | false => exact hrest
      | true =>
          cases x.ready i with
          | none => exact hrest
          | some received =>
              cases received with
              | block buffer => exact and_congr (hi.clear hhere buffer) hrest
              | closed => exact Eq.congr_left hi.name
              | error errno => exact hrest

/-- What somebody does on his own seat is nothing to those who are still to be
served. So the condition on a pass can be stated once, on the table the loop
begins with. -/
theorem calm_apart {x : Pass} {i : Slot} {r r' : Room} (h : Apart i r r') {is : List Slot}
    (hi : i ∉ is) :
    x.Calm (fun j => (r' j).guest) is ↔ x.Calm (fun j => (r j).guest) is := by
  refine calm_congr fun j hj => ?_
  rw [(h j fun hji => hi (hji ▸ hj)).1]
  exact ⟨rfl, rfl, fun _ _ => Iff.rfl⟩

/-- The loop over these users: calm, it shows what the room becomes; otherwise
it does not come to its end. -/
def Serves (x : Pass) (is : List Slot) (w : Users) (r : Room) : Prop :=
  (x.Calm (fun i => (r i).guest) is →
      Gives (serve x is w) fun w' => InRoom w' (Room.serve x is r))
    ∧ (¬ x.Calm (fun i => (r i).guest) is →
      serve x is w = .error .overread ∨ serve x is w = .error (.exit bad_file_descriptor))

section Serve

variable {x : Pass} (hx : x.Works) {i : Slot} {is : List Slot} {w : Users} {r : Room}
  (h : InRoom w r)

/-- A user from whom there is nothing is passed over: not connected, not ready,
or interrupted in `recv`. -/
theorem Serves.skip (hserve : serve x (i :: is) w = serve x is w)
    (hroom : Room.serve x (i :: is) r = Room.serve x is r)
    (hcalm : x.Calm (fun i => (r i).guest) (i :: is) ↔ x.Calm (fun i => (r i).guest) is)
    (hrest : Serves x is w r) : Serves x (i :: is) w r := by
  rw [Serves, hserve, hroom, hcalm]
  exact hrest

include hx h

/-- A clear block leaves the others as they are; any other is the last. The rest
of the loop is given by the induction, on the room the block has left. -/
theorem Serves.block {buffer : List UInt8} (hi : i ∉ is) (ht : (r i).taken = true)
    (hready : x.ready i = some (.block buffer))
    (hrest : ∀ w', InRoom w' (r.receive i buffer) → Serves x is w' (r.receive i buffer)) :
    Serves x (i :: is) w r := by
  have hvalid : (w i).sock.valid = true := (h i).sock.valid.trans ht
  have hcalm : x.Calm (fun i => (r i).guest) (i :: is)
      ↔ Clear ((r i).telnet, false) buffer ∧ x.Calm (fun i => (r i).guest) is := by
    simp only [Pass.Calm, Guest.Calm, Seat.guest_here, Seat.guest_telnet, ht, if_true, hready]
  have hroom : Room.serve x (i :: is) r = Room.serve x is (r.receive i buffer) := by
    simp only [Room.serve, ht, if_true, hready]
  rw [Serves, hcalm, hroom]
  by_cases hclear : Clear ((r i).telnet, false) buffer
  · obtain ⟨w', hok, h'⟩ := recv_shows hx.net h i hclear
    have hserve : serve x (i :: is) w = serve x is w' := by
      simp only [serve, hvalid, if_true, hready, hok]
      rfl
    obtain ⟨hgo, hstop⟩ := hrest w' h'
    rw [calm_apart (Apart.receive i r buffer) hi] at hgo hstop
    rw [hserve]
    exact ⟨fun hc => hgo hc.2, fun hc => hstop fun hc' => hc ⟨hclear, hc'⟩⟩
  · have hserve : serve x (i :: is) w = .error .overread := by
      simp only [serve, hvalid, if_true, hready, recv_overreads hx.net h i hclear]
      rfl
    exact ⟨fun hc => absurd hc.1 hclear, fun _ => Or.inl hserve⟩

/-- Somebody has hung up, and the loop ends: with a name he takes the server
with him, without one the `break` leaves the rest to the next pass. -/
theorem Serves.closed (ht : (r i).taken = true) (hready : x.ready i = some .closed) :
    Serves x (i :: is) w r := by
  have hvalid : (w i).sock.valid = true := (h i).sock.valid.trans ht
  have hcalm : x.Calm (fun i => (r i).guest) (i :: is) ↔ (w i).name = none := by
    rw [(h i).name]
    simp only [Pass.Calm, Guest.Calm, Seat.guest_here, Seat.guest_name, ht, if_true, hready]
  have hserve : serve x (i :: is) w = disconnect x.net i w := by
    simp only [serve, hvalid, if_true, hready]
  have hroom : Room.serve x (i :: is) r = r.leave i := by
    simp only [Room.serve, ht, if_true, hready]
  rw [Serves, hcalm, hserve, hroom]
  exact ⟨fun hname => disconnect_shows h hname,
    fun hname => Or.inr (disconnect_fails hx.net h hname)⟩

end Serve

/-- **The loop over the users.** The induction is on the slots still to be
served, for every table that shows a room; each case is one of the lemmas
above. -/
theorem serve_shows {x : Pass} (hx : x.Works) (is : List Slot) :
    is.Nodup → ∀ {w : Users} {r : Room}, InRoom w r → Serves x is w r := by
  induction is with
  | nil => exact fun _ w r h => ⟨fun _ => gives_ok h, fun hc => absurd trivial hc⟩
  | cons i is ih =>
      intro hnodup w r h
      obtain ⟨hi, hnodup⟩ := List.nodup_cons.mp hnodup
      have hvalid := (h i).sock.valid
      cases ht : (r i).taken with
      | false =>
          rw [ht] at hvalid
          refine Serves.skip ?_ ?_ ?_ (ih hnodup h)
          · simp only [serve, hvalid, Bool.false_eq_true, if_false]
          · simp only [Room.serve, ht, Bool.false_eq_true, if_false]
          · simp only [Pass.Calm, Seat.guest_here, ht, Bool.false_eq_true, if_false]
      | true =>
          rw [ht] at hvalid
          cases hready : x.ready i with
          | none =>
              refine Serves.skip ?_ ?_ ?_ (ih hnodup h)
              · simp only [serve, hvalid, if_true, hready]
              · simp only [Room.serve, ht, if_true, hready]
              · simp only [Pass.Calm, Guest.Calm, Seat.guest_here, ht, if_true, hready]
          | some received =>
              cases received with
              | block buffer => exact Serves.block hx h hi ht hready fun w' h' => ih hnodup h'
              | closed => exact Serves.closed hx h ht hready
              | error errno =>
                  obtain rfl := hx.ready i errno hready
                  refine Serves.skip ?_ ?_ ?_ (ih hnodup h)
                  · simp only [serve, hvalid, if_true, hready]
                  · simp only [Room.serve, ht, if_true, hready]
                  · simp only [Pass.Calm, Guest.Calm, Seat.guest_here, ht, if_true, hready]

/-- Who sits in the room when the loop begins is who the loop finds in the
table, the newcomer of this very pass among them. -/
theorem guest_like {w : Users} {r : Room} (h : InRoom w r) (x : Pass) (i : Slot) :
    (x.guest w i).Like (r.come x i).guest := by
  have hvalid := (h i).sock.valid
  have hname := (h i).name
  have hinit : ∀ buffer, Clear (telnet_init telopts 0, false) buffer
      ↔ Clear (telnet_init telopts 0, false) buffer := fun _ => Iff.rfl
  have hclear : ∀ buffer, Clear ((r i).telnet, false) buffer ↔ Clear ((w i).telnet, false) buffer :=
    fun buffer => ⟨SameParse.clear buffer (h i).telnet, SameParse.clear buffer (h i).telnet.symm⟩
  -- somebody has come to this seat, or it is as it was
  by_cases hnew : x.connection.isSome ∧ free w = some i
  · obtain ⟨hconn, hfree⟩ := hnew
    obtain ⟨rejected, hconn⟩ := Option.isSome_iff_exists.mp hconn
    have hcome : r.come x = r.enter i := by simp only [Room.come, hconn, ← free_eq h, hfree]
    have hnot : (w i).sock.valid = false := by simpa using List.find?_some hfree
    rw [hcome, Pass.guest, hnot]
    constructor <;> simp [Room.enter, Room.tell, Seat.guest, hconn, hfree, hname]
  · have hcome : r.come x i = r i := by
      rw [Room.come, ← free_eq h]
      cases hconn : x.connection with
      | none => rfl
      | some rejected =>
          cases hfree : free w with
          | none => rfl
          | some j =>
              have hij : i ≠ j := by
                rintro rfl
                exact hnew ⟨by rw [hconn]; rfl, hfree⟩
              simp only [Room.enter, Room.tell, Room.put_of_ne hij]
    have hnone : (x.connection.isSome && free w = some i) = false := by simpa using hnew
    rw [hcome, Pass.guest]
    split
    · next hv => exact ⟨hvalid.symm.trans hv, hname.symm, fun _ => hclear⟩
    · next hv =>
        rw [Bool.not_eq_true] at hv
        refine ⟨?_, hname.symm, fun hh => ?_⟩
        · exact (hvalid.symm.trans hv).trans hnone.symm
        · exact absurd (hnone.symm.trans hh) Bool.false_ne_true

/-- The new connection, if there is room for it. If there is none the server
writes behind its table, whatever the network does with the refusal. -/
theorem new_connection_shows {x : Pass} (hx : x.Works) {w : Users} {r : Room} (h : InRoom w r) :
    ((x.connection.isSome → (free w).isSome) →
      Gives (new_connection x w) fun w' => InRoom w' (r.come x))
    ∧ (¬ (x.connection.isSome → (free w).isSome) → new_connection x w = .error .overrun) := by
  cases hconn : x.connection with
  | none =>
      have hcome : r.come x = r := by simp only [Room.come, hconn]
      refine ⟨fun _ => ?_, fun hfull => absurd (by simp) hfull⟩
      rw [new_connection, hconn, hcome]
      exact gives_ok h
  | some rejected =>
      rw [new_connection, hconn]
      simp only [accept]
      cases hfree : free w with
      | some i =>
          have hcome : r.come x = r.enter i := by simp only [Room.come, hconn, ← free_eq h, hfree]
          refine ⟨fun _ => ?_, fun hfull => absurd (by simp) hfull⟩
          rw [hcome]
          exact welcome_shows hx.net h i
      | none =>
          refine ⟨fun hroom => absurd (hroom rfl) (by simp), fun _ => ?_⟩
          obtain ⟨s, hok, -⟩ := send_flows (hx.connection rejected hconn) {}
            ((ascii "Too many users.\r\n").take 14)
          simp only [hok]
          rfl

/-- How a pass that is not orderly ends the server. -/
def Stop.Disorder (stop : Stop) : Prop :=
  stop = .overrun ∨ stop = .overread ∨ stop = .exit bad_file_descriptor

/-- **One pass**: orderly, it shows what the room becomes; otherwise it is the
last. The two halves are what makes the condition exact. -/
theorem pass_shows {x : Pass} (hx : x.Works) {w : Users} {r : Room} (h : InRoom w r) :
    (Orderly w x → Gives (pass w x) fun w' => InRoom w' (r.pass x))
    ∧ (¬ Orderly w x → ∃ stop, pass w x = .error stop ∧ Stop.Disorder stop) := by
  obtain ⟨hcome, hfull⟩ := new_connection_shows hx h
  by_cases hroom : x.connection.isSome → (free w).isSome
  · obtain ⟨w', hok, h'⟩ := hcome hroom
    have hpass : pass w x = serve x (List.finRange MAX_USERS) w' := by
      rw [pass, hok]
      rfl
    obtain ⟨hgo, hstop⟩ := serve_shows hx (List.finRange MAX_USERS) (List.nodup_finRange _) h'
    rw [calm_congr fun i _ => guest_like h x i] at hgo hstop
    rw [hpass]
    refine ⟨fun ho => hgo ho.calm, fun ho => ?_⟩
    rcases hstop fun hcalm => ho ⟨hroom, hcalm⟩ with hend | hend
    · exact ⟨_, hend, Or.inr (Or.inl rfl)⟩
    · exact ⟨_, hend, Or.inr (Or.inr rfl)⟩
  · refine ⟨fun ho => absurd ho.room hroom, fun _ => ⟨.overrun, ?_, Or.inl rfl⟩⟩
    rw [pass, hfull hroom]
    rfl

/-! ## 3. Every run -/

/-- A pass of the program. -/
def Stage.poll (st : Stage) (x : Pass) : Stage := st.step (.poll x)

/-- The pass is orderly, if there is one. -/
def Stage.Orderly : Stage → Pass → Prop
  | .up w, x => Chatd.Orderly w x
  | .down _, _ => False

theorem poll_up {w : Users} {x : Pass} {Q : Users → Prop} (h : Gives (pass w x) Q) :
    ∃ w', (Stage.up w).poll x = .up w' ∧ Q w' := by
  obtain ⟨w', hok, hQ⟩ := h
  refine ⟨w', ?_, hQ⟩
  rw [Stage.poll, Stage.step, hok]

/-- Nobody is there, and no seat is taken. -/
theorem init_inRoom : InRoom .init .init :=
  fun _ => ⟨rfl, rfl, SameParse.refl ⟨Nat.le_refl 0, List.mem_cons_self ..⟩, rfl⟩

/-- An orderly run shows the room. This is `pass_shows` along the run: each pass
is orderly in the table it finds, and leaves one that shows the next room. -/
theorem run_inRoom (passes : List Pass) (hworks : ∀ x ∈ passes, x.Works) :
    ∀ {w : Users} {r : Room}, InRoom w r →
    Along Stage.poll Stage.Orderly (.up w) passes →
    ∃ w', run Stage.poll (.up w) passes = .up w' ∧ InRoom w' (passes.foldl Room.pass r) := by
  induction passes with
  | nil => exact fun h _ => ⟨_, rfl, h⟩
  | cons x passes ih =>
      intro w r h horderly
      obtain ⟨w', hup, h'⟩ :=
        poll_up ((pass_shows (hworks x (List.mem_cons_self ..)) h).1 horderly.1)
      have hrest := horderly.2
      rw [hup] at hrest
      obtain ⟨w'', hrun, h''⟩ := ih (fun y hy => hworks y (List.mem_cons_of_mem _ hy)) h' hrest
      exact ⟨w'', by rw [run_cons, hup, hrun], h''⟩

instance (g : Guest) (rest : Prop) [Decidable rest] :
    (received : Option Received) → Decidable (g.Calm rest received)
  | some (.block _) => inferInstanceAs (Decidable (_ ∧ _))
  | some .closed => inferInstanceAs (Decidable (_ = _))
  | some (.error _) => inferInstanceAs (Decidable rest)
  | none => inferInstanceAs (Decidable rest)

instance decidableCalm (x : Pass) (guest : Slot → Guest) :
    (is : List Slot) → Decidable (x.Calm guest is)
  | [] => inferInstanceAs (Decidable True)
  | i :: is =>
      have := decidableCalm x guest is
      inferInstanceAs (Decidable (if (guest i).here then _ else _))

/-- Whether a run is orderly can be seen in the room. -/
def Room.Orderly (r : Room) (x : Pass) : Prop :=
  (x.connection.isSome → r.free.isSome)
    ∧ x.Calm (fun i => (r.come x i).guest) (List.finRange MAX_USERS)

instance (r : Room) (x : Pass) : Decidable (r.Orderly x) := inferInstanceAs (Decidable (_ ∧ _))

/-- Orderly is a condition on the room as much as on the table. -/
theorem orderly_iff {w : Users} {r : Room} (h : InRoom w r) (x : Pass) :
    Orderly w x ↔ r.Orderly x := by
  rw [Room.Orderly, ← free_eq h, calm_congr fun i _ => guest_like h x i]
  exact ⟨fun ho => ⟨ho.room, ho.calm⟩, fun ho => ⟨ho.1, ho.2⟩⟩

/-- The same along a run, which is how the room's own lemmas, below and in
`Util/ChatTalk.lean`, come to know it. -/
theorem along_orderly_iff (passes : List Pass) (hworks : ∀ x ∈ passes, x.Works) :
    ∀ {w : Users} {r : Room}, InRoom w r →
      (Along Stage.poll Stage.Orderly (.up w) passes
        ↔ Along Room.pass Room.Orderly r passes) := by
  induction passes with
  | nil => exact fun _ => Iff.rfl
  | cons x passes ih =>
      intro w r h
      have hx := hworks x (List.mem_cons_self ..)
      have hfirst := orderly_iff h x
      have hrest := fun w' h' =>
        ih (fun y hy => hworks y (List.mem_cons_of_mem _ hy)) (w := w') (r := r.pass x) h'
      constructor
      · rintro ⟨ho, hall⟩
        obtain ⟨w', hup, h'⟩ := poll_up ((pass_shows hx h).1 ho)
        rw [hup] at hall
        exact ⟨hfirst.mp ho, (hrest w' h').mp hall⟩
      · rintro ⟨ho, hall⟩
        obtain ⟨w', hup, h'⟩ := poll_up ((pass_shows hx h).1 (hfirst.mpr ho))
        refine ⟨hfirst.mpr ho, ?_⟩
        rw [hup]
        exact (hrest w' h').mpr hall

/-- Every step keeps the names apart, a failing `poll` or `accept` trivially. -/
theorem step_named (st : Stage) (x : Input) (h : ∀ w, st = .up w → Named w) :
    ∀ w, st.step x = .up w → Named w := by
  intro w hw
  cases st with
  | down stop => cases hw
  | up w₀ =>
      cases x with
      | failed text => cases hw
      | poll x =>
          rw [Stage.step] at hw
          split at hw
          · next w₁ hpass =>
              cases hw
              exact pass_named (h w₀ rfl) x w hpass
          · cases hw

theorem start_named : ∀ w, start = .up w → Named w := by
  rintro w ⟨⟩
  constructor
  · intro i name hi
    cases hi
  · intro i j name hi
    cases hi

/-- **Nobody has another one's name**: in every run, whatever arrives and
whatever the network does, the names in the table are different, and 1 to 32
bytes long. Nothing is asked of the run, since a step that does not end the
program has kept them. -/
theorem names_unique (inputs : List Input) {w : Users}
    (hup : Machine.run Stage.step start inputs = .up w) :
    Named w :=
  Machine.run_invariant Stage.step step_named start_named inputs w hup

/-- Somebody comes, and every `send()` takes all it is given. -/
def comes : Pass := ⟨fun _ _ size => .sent size, some fun _ size => .sent size, fun _ => none⟩

/-- This user sends a block. -/
def sends (i : Slot) (buffer : List UInt8) : Pass :=
  ⟨fun _ _ size => .sent size, none, fun j => if j = i then some (.block buffer) else none⟩

/-- This user types. -/
def types (i : Slot) (text : String) : Pass := sends i (ascii text)

/-- This user hangs up. -/
def hangs_up (i : Slot) : Pass :=
  ⟨fun _ _ size => .sent size, none, fun j => if j = i then some .closed else none⟩

theorem works {passes : List Pass}
    (h : ∀ x ∈ passes, x = comes ∨ (∃ i buffer, x = sends i buffer) ∨ ∃ i, x = hangs_up i) :
    ∀ x ∈ passes, x.Works := by
  intro x hx
  have hflows : Flows (ε := Errno) fun _ size => .sent size :=
    fun k size hsize => ⟨size, rfl, hsize, Nat.le_refl _⟩
  rcases h x hx with rfl | ⟨i, buffer, rfl⟩ | ⟨i, rfl⟩
  · exact ⟨fun _ => hflows, by rintro _ ⟨⟩; exact hflows, by rintro j errno ⟨⟩⟩
  · refine ⟨fun _ => hflows, by rintro _ ⟨⟩, fun j errno hj => ?_⟩
    simp only [sends] at hj
    split at hj <;> cases hj
  · refine ⟨fun _ => hflows, by rintro _ ⟨⟩, fun j errno hj => ?_⟩
    simp only [hangs_up] at hj
    split at hj <;> cases hj

/-- Two who both want to be Bob: the second is asked again. -/
theorem names_unique_bob :
    ∃ w, run Stage.step start
        [.poll comes, .poll (types 0 "bob\r\n"), .poll comes, .poll (types 1 "bob\r\n")] = .up w
      ∧ Named w ∧ (w 0).name = some ⟨ascii "bob", by decide⟩ ∧ (w 1).name = none := by
  have hworks : ∀ x ∈ [comes, types 0 "bob\r\n", comes, types 1 "bob\r\n"], x.Works :=
    works (by simp [types])
  obtain ⟨w, hup, h⟩ := run_inRoom _ hworks init_inRoom
    ((along_orderly_iff _ hworks init_inRoom).mpr (by decide +kernel))
  have hup' : run Stage.step start
      [.poll comes, .poll (types 0 "bob\r\n"), .poll comes, .poll (types 1 "bob\r\n")] = .up w :=
    hup
  refine ⟨w, hup', names_unique _ hup', ?_, ?_⟩
  · rw [(h 0).name]
    decide +kernel
  · rw [(h 1).name]
    decide +kernel

/-- **When the server ends**: on working connections it runs exactly as long as
nobody comes to a full table, nobody with a name hangs up, and every block it
reads is clear. When it ends it has written behind its table, read behind its
buffer, or written to a socket it had closed. -/
theorem server_up_iff (passes : List Pass) (hworks : ∀ x ∈ passes, x.Works) :
    ((∃ w, run Stage.poll start passes = .up w) ↔ Along Stage.poll Stage.Orderly start passes)
    ∧ (¬ Along Stage.poll Stage.Orderly start passes →
      run Stage.poll start passes = .down .overrun
        ∨ run Stage.poll start passes = .down .overread
        ∨ run Stage.poll start passes = .down (.exit bad_file_descriptor)) := by
  have hdown : ∀ (st : Stage) (x : Pass), x.Works →
      (∃ stop, st = .down stop ∧ Stop.Disorder stop) →
      ∃ stop, st.poll x = .down stop ∧ Stop.Disorder stop := by
    rintro st x - ⟨stop, rfl, hstop⟩
    exact ⟨stop, rfl, hstop⟩
  have hkeep : ∀ (st : Stage) (x : Pass), x.Works → (∃ w r, st = .up w ∧ InRoom w r) →
      st.Orderly x → ∃ w r, st.poll x = .up w ∧ InRoom w r := by
    rintro st x hx ⟨w, r, rfl, h⟩ ho
    obtain ⟨w', hup, h'⟩ := poll_up ((pass_shows hx h).1 ho)
    exact ⟨w', r.pass x, hup, h'⟩
  have hlose : ∀ (st : Stage) (x : Pass), x.Works → (∃ w r, st = .up w ∧ InRoom w r) →
      ¬ st.Orderly x → ∃ stop, st.poll x = .down stop ∧ Stop.Disorder stop := by
    rintro st x hx ⟨w, r, rfl, h⟩ ho
    obtain ⟨stop, hp, hstop⟩ := (pass_shows hx h).2 ho
    exact ⟨stop, by rw [Stage.poll, Stage.step, hp], hstop⟩
  rcases run_dichotomy Stage.poll hkeep hlose hdown passes hworks ⟨_, _, rfl, init_inRoom⟩ with
    ⟨halong, w, r, hup, -⟩ | ⟨halong, stop, hend, hstop⟩
  · exact ⟨⟨fun _ => halong, fun _ => ⟨w, hup⟩⟩, fun hn => absurd halong hn⟩
  · refine ⟨⟨?_, fun ha => absurd ha halong⟩, fun _ => ?_⟩
    · rintro ⟨w, hup⟩
      exact absurd (hup.symm.trans hend) (by simp)
    · rcases hstop with rfl | rfl | rfl
      · exact Or.inl hend
      · exact Or.inr (Or.inl hend)
      · exact Or.inr (Or.inr hend)

/-- Bob comes, logs in, and hangs up; or his stream is cut where the library has
a byte discarded, `IAC SB COMPRESS WILL`, and the next one is not there. -/
theorem server_up_iff_bob :
    (¬ ∃ w, run Stage.poll start [comes, types 0 "bob\r\n", hangs_up 0] = .up w)
      ∧ ¬ ∃ w, run Stage.poll start [comes,
        sends 0 [TELNET_IAC, TELNET_SB, TELNET_TELOPT_COMPRESS, TELNET_WILL]] = .up w := by
  have hworks : ∀ x ∈ [comes, types 0 "bob\r\n", hangs_up 0], x.Works := works (by simp [types])
  have hworks' : ∀ x ∈ [comes,
      sends 0 [TELNET_IAC, TELNET_SB, TELNET_TELOPT_COMPRESS, TELNET_WILL]], x.Works :=
    works (by simp)
  rw [(server_up_iff _ hworks).1, (server_up_iff _ hworks').1, start,
    along_orderly_iff _ hworks init_inRoom, along_orderly_iff _ hworks' init_inRoom]
  decide +kernel

/-- **The server shows the room**: after an orderly run on working connections,
whoever is connected reads what the room has on his screen, with any options and
any past that ends between two commands, in any blocks; and the names are those
of the room. -/
theorem server_shows_room (passes : List Pass) (hworks : ∀ x ∈ passes, x.Works)
    (horderly : Along Stage.poll Stage.Orderly start passes) :
    ∃ w, run Stage.poll start passes = .up w
      ∧ ∀ i, let seat := passes.foldl Room.pass Room.init i
        (w i).name = seat.name ∧ (w i).sock.valid = seat.taken
          ∧ ∀ s, (w i).sock = .live s →
            ∀ (telopts : List Telopt) (flags : UInt8) (past : List (List UInt8)),
            let u := (feed telnet_recv (telnet_init telopts flags) past).1
            u.state = .DATA → ∀ cut : List (List UInt8), cut.flatten = s.wire →
              delivered (feed telnet_recv u cut).2 = written seat.screen := by
  obtain ⟨w, hup, h⟩ := run_inRoom passes hworks init_inRoom horderly
  refine ⟨w, hup, fun i => ⟨(h i).name, (h i).sock.valid, ?_⟩⟩
  intro s hs telopts flags past u hu cut hcut
  have hsock := (h i).sock
  rw [hs] at hsock
  exact hsock.2.delivered hu (sized_recv telopts flags past) hcut

/-- Two come, and one of them logs in and says something. The other sees the
prompt and the message, and nothing of the login. -/
theorem server_shows_room_hi :
    ∃ w, run Stage.poll start [comes, comes, types 0 "bob\r\nhi\r\n"] = .up w
      ∧ ∀ s, (w 1).sock = .live s →
        delivered (feed telnet_recv (telnet_init [] 0) [s.wire]).2
          = ascii "Enter name: bob: hi\r\n" := by
  have hworks : ∀ x ∈ [comes, comes, types 0 "bob\r\nhi\r\n"], x.Works := works (by simp [types])
  have horderly : Along Stage.poll Stage.Orderly start [comes, comes, types 0 "bob\r\nhi\r\n"] := by
    rw [start, along_orderly_iff _ hworks init_inRoom]
    decide +kernel
  obtain ⟨w, hup, hroom⟩ := server_shows_room _ hworks horderly
  have hscreen :
      written ([comes, comes, types 0 "bob\r\nhi\r\n"].foldl Room.pass Room.init 1).screen
      = ascii "Enter name: bob: hi\r\n" := by decide +kernel
  refine ⟨w, hup, fun s hs => ?_⟩
  exact ((hroom 1).2.2 s hs [] 0 [] rfl [s.wire] (List.flatten_singleton ..)).trans hscreen

end AutoMag.Chatd
