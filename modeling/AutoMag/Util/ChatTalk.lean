/-
`Util/ChatTalk.lean` -- what the users of the chat server hear of each other.

Two properties of the room, carried over to the connections: what is said in a stretch of a
run is one log, and whoever is connected through the stretch is told that log
(`same_messages`); and in that log the lines of each user are those he typed, in their order,
whatever the others do in between (`typed_is_read`).
-/
import AutoMag.Util.ChatRun
import Mathlib.Data.List.Nodup

set_option autoImplicit false

namespace AutoMag.Chatd

open AutoMag.Client (ascii)
open AutoMag.Fallible AutoMag.Libtelnet AutoMag.Machine AutoMag.Util

/-! ## 1. The same for everybody -/

/-- The messages on a screen. -/
def heard (screen : List Shown) : List (CString × CString) :=
  screen.filterMap fun
    | .all user msg => some (user, msg)
    | .alone _ => none

theorem heard_append (xs ys : List Shown) : heard (xs ++ ys) = heard xs ++ heard ys :=
  List.filterMap_append ..

/-- The screen has grown by these messages, and by what was for this user
alone. -/
def Grows (old new : List Shown) (log : List (CString × CString)) : Prop :=
  ∃ more, new = old ++ more ∧ heard more = log

theorem Grows.refl (screen : List Shown) : Grows screen screen [] :=
  ⟨[], (List.append_nil _).symm, rfl⟩

/-- One stretch after the other: the screens follow each other, and so do the
messages on them. -/
theorem Grows.trans {a b c : List Shown} {log log' : List (CString × CString)} (h : Grows a b log)
    (h' : Grows b c log') : Grows a c (log ++ log') := by
  obtain ⟨xs, rfl, rfl⟩ := h
  obtain ⟨ys, rfl, rfl⟩ := h'
  exact ⟨xs ++ ys, List.append_assoc .., heard_append ..⟩

/-- What is said in the name of the user on a seat. -/
def Room.spoken (r : Room) (i : Slot) (msg : CString) : List (CString × CString) :=
  match (r i).name with
  | none => []
  | some name => [(name, msg)]

/-- A line, and what is said by it. -/
def Room.hear_log (i : Slot) (r : Room) (l : Line) : Room × List (CString × CString) :=
  (r.hear i l.line, r.spoken i (if l.line.bytes = ascii "quit" then has_quit else l.line))

/-- A character, and what is said by it. -/
def Room.type_log (i : Slot) (r : Room) (ch : UInt8) : Room × List (CString × CString) :=
  let p := linebuffer_push (r i).linebuf ch
  feed (hear_log i) (r.put i { r i with linebuf := p.1 }) p.2

/-- What is said by a block. -/
def Room.receive_log (r : Room) (i : Slot) (buffer : List UInt8) : List (CString × CString) :=
  (feed (type_log i) r (delivered (telnet_recv (r i).telnet buffer).2)).2

/-- What is said while the seats are served in turn. -/
def Room.serve_log (x : Pass) : List Slot → Room → List (CString × CString)
  | [], _ => []
  | i :: is, r =>
      if (r i).taken then
        match x.ready i with
        | some (.block buffer) => r.receive_log i buffer ++ serve_log x is (r.receive i buffer)
        | some .closed => r.spoken i has_disconnected
        | _ => serve_log x is r
      else serve_log x is r

/-- A pass of the room, and what is said in it. -/
def Room.pass_log (r : Room) (x : Pass) : Room × List (CString × CString) :=
  (r.pass x, Room.serve_log x (List.finRange MAX_USERS) (r.come x))

/-- Nobody comes, and whoever stays hears the log. -/
def Hears (log : List (CString × CString)) (r r' : Room) : Prop :=
  ∀ j, (r' j).taken = true → (r j).taken = true ∧ Grows (r j).screen (r' j).screen log

theorem Hears.refl (r : Room) : Hears [] r r := fun _ hj => ⟨hj, Grows.refl _⟩

/-- And for everybody at once. Somebody who comes in between the two has not
been there all the time, so nothing is claimed of him. -/
theorem Hears.trans {r r' r'' : Room} {log log' : List (CString × CString)} (h : Hears log r r')
    (h' : Hears log' r' r'') : Hears (log ++ log') r r'' := by
  intro j hj
  obtain ⟨hj', hgrows'⟩ := h' j hj
  obtain ⟨hj'', hgrows⟩ := h j hj'
  exact ⟨hj'', hgrows.trans hgrows'⟩

/-- A seat changes, and no message comes to it. A seat that becomes taken is
excluded by the hypothesis, for its screen is a new one. -/
theorem Hears.put {r : Room} {i : Slot} {s : Seat}
    (hs : s.taken = true → (r i).taken = true ∧ Grows (r i).screen s.screen []) :
    Hears [] r (r.put i s) := by
  intro j hj
  by_cases hji : j = i
  · subst hji
    rw [Room.put_self] at hj ⊢
    exact hs hj
  · rw [Room.put_of_ne hji] at hj ⊢
    exact ⟨hj, Grows.refl _⟩

/-- A seat changes in what nobody sees: a name, a line so far, a tracker. -/
theorem Hears.unseen {r : Room} {i : Slot} {s : Seat} (htaken : s.taken = (r i).taken)
    (hscreen : s.screen = (r i).screen) : Hears [] r (r.put i s) := by
  apply Hears.put
  intro ht
  rw [htaken] at ht
  rw [hscreen]
  exact ⟨ht, Grows.refl _⟩

/-- Steps in a row, with the messages of all of them in a row. -/
theorem Hears.feed {α : Type} {f : Room → α → Room × List (CString × CString)}
    (hf : ∀ r a, Hears (f r a).2 r (f r a).1) (as : List α) :
    ∀ r : Room, Hears (Machine.feed f r as).2 r (Machine.feed f r as).1 := by
  induction as with
  | nil => exact fun r => Hears.refl r
  | cons a as ih => exact fun r => (hf r a).trans (ih _)

theorem Hears.tell (r : Room) (i : Slot) (text : List UInt8) : Hears [] r (r.tell i text) := by
  apply Hears.put
  intro ht
  rw [Seat.add_taken] at ht
  exact ⟨ht, [.alone text], by simp only [Seat.add, if_pos ht], rfl⟩

/-- What is said is on every screen that somebody is looking at. -/
theorem Hears.say (r : Room) (user msg : CString) : Hears [(user, msg)] r (r.say user msg) := by
  intro j hj
  rw [Room.say, Seat.add_taken] at hj
  exact ⟨hj, [.all user msg], by simp only [Room.say, Seat.add, if_pos hj], rfl⟩

/-- The message about somebody who goes is one like the others, under his
name. -/
theorem Hears.farewell (r : Room) (i : Slot) (msg : CString) :
    Hears (r.spoken i msg) r (r.farewell i msg) := by
  unfold Room.farewell Room.spoken
  cases (r i).name with
  | none => exact Hears.refl r
  | some name => exact (Hears.say r name msg).trans (Hears.unseen rfl rfl)

/-- Somebody goes. He is off his seat before the message, so it is for the
others. -/
theorem Hears.go (r : Room) (i : Slot) (msg : CString) :
    Hears (r.spoken i msg) r ((r.put i { r i with taken := false }).farewell i msg) := by
  have hgone : Hears [] r (r.put i { r i with taken := false }) :=
    Hears.put fun ht => absurd ht Bool.false_ne_true
  have hspoken : (r.put i { r i with taken := false }).spoken i msg = r.spoken i msg := by
    simp only [Room.spoken, Room.put_self]
  rw [← hspoken]
  exact hgone.trans (Hears.farewell _ i msg)

/-- A line of a user: a login is told to him alone, all else is said to all. -/
theorem Hears.hear (i : Slot) (r : Room) (l : Line) :
    Hears (r.hear_log i l).2 r (r.hear_log i l).1 := by
  unfold Room.hear_log Room.hear
  cases hname : (r i).name with
  | none =>
      have hlog : ∀ msg, r.spoken i msg = [] := fun msg => by simp only [Room.spoken, hname]
      simp only [hlog, Room.login]
      split_ifs
      · exact Hears.tell r i _
      · exact Hears.tell r i _
      · have hput : Hears [] r (r.put i { r i with name := some l.line }) := Hears.unseen rfl rfl
        exact hput.trans (Hears.tell _ i _)
  | some name =>
      have hlog : ∀ msg, r.spoken i msg = [(name, msg)] :=
        fun msg => by simp only [Room.spoken, hname]
      by_cases hquit : l.line.bytes = ascii "quit"
      · simp only [if_pos hquit]
        exact Hears.go r i _
      · simp only [if_neg hquit, hlog]
        exact Hears.say r name l.line

/-- The log is kept beside the room and changes nothing in it. -/
theorem type_log_fst (i : Slot) (r : Room) (ch : UInt8) : (r.type_log i ch).1 = Room.type i r ch :=
  feed_fst _ (fun _ _ => rfl) _ _

/-- **A block**: everybody who is there reads all its messages, the sender
too. -/
theorem Hears.receive (r : Room) (i : Slot) (buffer : List UInt8) :
    Hears (r.receive_log i buffer) r (r.receive i buffer) := by
  have htype : ∀ (r : Room) (ch : UInt8), Hears (r.type_log i ch).2 r (r.type_log i ch).1 := by
    intro r ch
    have hput : Hears [] r (r.put i { r i with linebuf := (linebuffer_push (r i).linebuf ch).1 }) :=
      Hears.unseen rfl rfl
    exact hput.trans (Hears.feed (Hears.hear i) _ _)
  have hall := Hears.feed htype (delivered (telnet_recv (r i).telnet buffer).2) r
  rw [feed_fst _ (type_log_fst i)] at hall
  have hparsed : Hears [] (run (Room.type i) r (delivered (telnet_recv (r i).telnet buffer).2))
      (r.receive i buffer) := Hears.unseen rfl rfl
  rw [← List.append_nil (r.receive_log i buffer)]
  exact hall.trans hparsed

/-- The loop over the users. Between two users nobody comes, so whoever is there
at the end was there all the time. -/
theorem Hears.serve (x : Pass) (is : List Slot) :
    ∀ r : Room, Hears (Room.serve_log x is r) r (Room.serve x is r) := by
  induction is with
  | nil => exact fun r => Hears.refl r
  | cons i is ih =>
      intro r
      unfold Room.serve Room.serve_log
      cases (r i).taken with
      | false => exact ih r
      | true =>
          cases x.ready i with
          | none => exact ih r
          | some received =>
              cases received with
              | block buffer => exact (Hears.receive r i buffer).trans (ih _)
              | closed => exact Hears.go r i _
              | error errno => exact ih r

/-- Whoever comes takes a seat that was free, and disturbs nobody. -/
theorem come_taken {r : Room} {x : Pass} {j : Slot} (hj : (r j).taken = true) :
    r.come x j = r j := by
  rw [Room.come]
  cases x.connection with
  | none => rfl
  | some _ =>
      cases hfree : r.free with
      | none => rfl
      | some i =>
          have hji : j ≠ i := by
            rintro rfl
            have hnot := List.find?_some hfree
            simp [hj] at hnot
          simp only [Room.enter, Room.tell, Room.put_of_ne hji]

/-- **One pass of the room**: those who were there before it and are there after
it read all that is said in it. The newcomer is let in first, so he is there for
the loop but not before it. -/
theorem pass_hears (r : Room) (x : Pass) {j : Slot} (hj : (r j).taken = true)
    (hj' : (r.pass x j).taken = true) :
    Grows (r j).screen (r.pass x j).screen (r.pass_log x).2 := by
  have hgrows := (Hears.serve x (List.finRange MAX_USERS) (r.come x) j hj').2
  rw [come_taken hj] at hgrows
  exact hgrows

/-- **A run of the room.** The induction is on the passes; the condition along
the run says that he is there after each of them. -/
theorem run_hears (passes : List Pass) {j : Slot} : ∀ {r : Room}, (r j).taken = true →
    Along Room.pass (fun r x => (r.pass x j).taken = true) r passes →
    (passes.foldl Room.pass r j).taken = true
      ∧ Grows (r j).screen (passes.foldl Room.pass r j).screen (feed Room.pass_log r passes).2 := by
  induction passes with
  | nil => exact fun hj _ => ⟨hj, Grows.refl _⟩
  | cons x passes ih =>
      intro r hj hstays
      obtain ⟨hend, hgrows⟩ := ih hstays.1 hstays.2
      exact ⟨hend, (pass_hears r x hj hstays.1).trans hgrows⟩

/-- The user is connected. -/
def Stage.Connected (i : Slot) : Stage → Prop
  | .up w => (w i).sock.valid = true
  | .down _ => False

/-- Whoever stays connected stays on his seat: the condition in the program's
terms and the one in the room's are the same. -/
theorem along_connected_iff (passes : List Pass) (hworks : ∀ x ∈ passes, x.Works) (i : Slot) :
    ∀ {w : Users} {r : Room}, InRoom w r → Along Stage.poll Stage.Orderly (.up w) passes →
    (Along Stage.poll (fun st x => (st.poll x).Connected i) (.up w) passes
      ↔ Along Room.pass (fun r x => (r.pass x i).taken = true) r passes) := by
  induction passes with
  | nil => exact fun _ _ => Iff.rfl
  | cons x passes ih =>
      rintro w r h ⟨ho, horderly⟩
      obtain ⟨w', hup, h'⟩ := poll_up ((pass_shows (hworks x (List.mem_cons_self ..)) h).1 ho)
      rw [hup] at horderly
      have hrest := ih (fun y hy => hworks y (List.mem_cons_of_mem _ hy)) h' horderly
      have hnow : ((Stage.up w).poll x).Connected i ↔ (r.pass x i).taken = true := by
        rw [hup, ← (h' i).sock.valid]
        rfl
      rw [Along, Along, hnow, hup, hrest]

/-- A stretch of an orderly run, with the room at its beginning and at its end.
Both theorems of this module are about such a stretch. -/
theorem run_stretch (before after : List Pass) (hworks : ∀ x ∈ before ++ after, x.Works)
    (horderly : Along Stage.poll Stage.Orderly start (before ++ after)) :
    ∃ w w' : Users, run Stage.poll start before = .up w
      ∧ run Stage.poll start (before ++ after) = .up w'
      ∧ InRoom w (before.foldl Room.pass Room.init)
      ∧ InRoom w' (after.foldl Room.pass (before.foldl Room.pass Room.init))
      ∧ Along Stage.poll Stage.Orderly (.up w) after := by
  have hw : ∀ x ∈ before, x.Works := fun x hx => hworks x (List.mem_append_left _ hx)
  have hw' : ∀ x ∈ after, x.Works := fun x hx => hworks x (List.mem_append_right _ hx)
  obtain ⟨w, hup, h⟩ := run_inRoom before hw init_inRoom horderly.of_append
  have hafter := horderly.of_append_right
  rw [start, hup] at hafter
  obtain ⟨w', hup', h'⟩ := run_inRoom after hw' h hafter
  refine ⟨w, w', hup, ?_, h, h', hafter⟩
  rw [run, List.foldl_append, ← run, start, ← run, hup]
  exact hup'

/-- Whoever stays through a stretch reads what the room has logged of it. His
socket has carried what was on his screen before, and then the rest. -/
theorem stretch_hears {after : List Pass} (hworks : ∀ x ∈ after, x.Works) {w w' : Users} {r : Room}
    (h : InRoom w r) (h' : InRoom w' (after.foldl Room.pass r))
    (horderly : Along Stage.poll Stage.Orderly (.up w) after) {i : Slot}
    (hi : (w i).sock.valid = true)
    (hstays : Along Stage.poll (fun st x => (st.poll x).Connected i) (.up w) after) :
    OnScreen (w i).sock true (r i).screen
      ∧ OnScreen (w' i).sock true (after.foldl Room.pass r i).screen
      ∧ Grows (r i).screen (after.foldl Room.pass r i).screen (feed Room.pass_log r after).2 := by
  have htaken := (h i).sock.valid.symm.trans hi
  have hstays' := (along_connected_iff after hworks i h horderly).mp hstays
  obtain ⟨hend, hgrows⟩ := run_hears after htaken hstays'
  have hold := (h i).sock
  have hnew := (h' i).sock
  rw [htaken] at hold
  rw [hend] at hnew
  exact ⟨hold, hnew, hgrows⟩

/-- **The same messages for everybody**: in an orderly run on working
connections there is one log of what is said, and whoever stays connected from
some moment of the run to its end is told in that time just the log, in its
order, among what is for him alone. -/
theorem same_messages (before after : List Pass) (hworks : ∀ x ∈ before ++ after, x.Works)
    (horderly : Along Stage.poll Stage.Orderly start (before ++ after)) :
    let r := before.foldl Room.pass Room.init
    let r' := after.foldl Room.pass r
    ∃ w w' : Users, run Stage.poll start before = .up w
      ∧ run Stage.poll start (before ++ after) = .up w'
      ∧ ∀ i, (w i).sock.valid = true →
        Along Stage.poll (fun st x => (st.poll x).Connected i) (.up w) after →
        OnScreen (w i).sock true (r i).screen ∧ OnScreen (w' i).sock true (r' i).screen
          ∧ Grows (r i).screen (r' i).screen (feed Room.pass_log r after).2 := by
  intro r r'
  obtain ⟨w, w', hup, hup', h, h', hafter⟩ := run_stretch before after hworks horderly
  refine ⟨w, w', hup, hup', fun i hi hstays => ?_⟩
  exact stretch_hears (fun x hx => hworks x (List.mem_append_right _ hx)) h h' hafter hi hstays

/-- Two users are connected while the first logs in and says something: both are
told `bob: hi`, and Bob is greeted besides. -/
theorem same_messages_hi :
    ∃ w', run Stage.poll start [comes, comes, types 0 "bob\r\nhi\r\n"] = .up w'
      ∧ ∀ i ∈ [(0 : Slot), 1], ∃ old new, OnScreen (w' i).sock true (old ++ new)
        ∧ heard new = [(⟨ascii "bob", by decide⟩, ⟨ascii "hi", by decide⟩)] := by
  let r := [comes, comes].foldl Room.pass Room.init
  have hworks : ∀ x ∈ [comes, comes] ++ [types 0 "bob\r\nhi\r\n"], x.Works :=
    works (by simp [types])
  have hw : ∀ x ∈ [types 0 "bob\r\nhi\r\n"], x.Works := works (by simp [types])
  have horderly := (along_orderly_iff _ hworks init_inRoom).mpr (by decide +kernel)
  obtain ⟨w, w', hup, hup', hsame⟩ := same_messages _ _ hworks horderly
  obtain ⟨w₀, w₁, hup₀, -, h, -, hafter⟩ := run_stretch _ _ hworks horderly
  obtain rfl : w₀ = w := Stage.up.inj (hup₀.symm.trans hup)
  have hroom : ∀ i ∈ [(0 : Slot), 1], (r i).taken = true
      ∧ Along Room.pass (fun r x => (r.pass x i).taken = true) r [types 0 "bob\r\nhi\r\n"] := by
    decide +kernel
  have hlog : (feed Room.pass_log r [types 0 "bob\r\nhi\r\n"]).2
      = [(⟨ascii "bob", by decide⟩, ⟨ascii "hi", by decide⟩)] := by
    decide +kernel
  refine ⟨w', hup', fun i hi => ?_⟩
  obtain ⟨htaken, hstays⟩ := hroom i hi
  obtain ⟨-, hnew, new, hscreen, hheard⟩ := hsame i ((h i).sock.valid.trans htaken)
    ((along_connected_iff _ hw i h hafter).mpr hstays)
  rw [hscreen] at hnew
  exact ⟨_, new, hnew, hheard.trans hlog⟩

/-! ## 2. What one user sends

His seat alone decides what becomes of his bytes; the others come and go and talk in between. -/

/-- What is said under this name. -/
def under (user : CString) (log : List (CString × CString)) : List CString :=
  (log.filter fun m => m.1 = user).map Prod.snd

theorem under_append (user : CString) (as bs : List (CString × CString)) :
    under user (as ++ bs) = under user as ++ under user bs := by
  simp [under]

/-- Where nobody speaks under the name there is nothing under it. -/
theorem under_eq_nil {user : CString} {log : List (CString × CString)}
    (h : ∀ m ∈ log, m.1 ≠ user) : under user log = [] := by
  rw [under, List.filter_eq_nil_iff.mpr (by simpa using h), List.map_nil]

/-- The ear of a seat: how far the stream is parsed, and the line begun. -/
abbrev Ear : Type := Telnet × LineBuffer LINEBUFFER_SIZE

/-- The lines a block makes. -/
def listen (e : Ear) (block : List UInt8) : Ear × List CString :=
  let p := telnet_recv e.1 block
  let q := feed linebuffer_push e.2 (delivered p.2)
  ((p.1, q.1), q.2.map Line.line)

/-- Block after block is parser after parser: first all the data, then all the
lines. So the cut into blocks drops out, as it does in `telnet_recv`. -/
theorem feed_listen (blocks : List (List UInt8)) : ∀ e : Ear,
    let p := feed telnet_recv e.1 blocks
    let q := feed linebuffer_push e.2 (delivered p.2)
    feed listen e blocks = ((p.1, q.1), q.2.map Line.line) := by
  induction blocks with
  | nil => exact fun e => rfl
  | cons block blocks ih =>
      intro e
      simp only [feed_cons, ih, listen, delivered_append, feed_append, List.map_append]

/-- The blocks of this user that the loop over these slots reads. It does not
come to him if somebody before him has hung up. -/
def Pass.reads (x : Pass) (guest : Slot → Guest) (i : Slot) : List Slot → List (List UInt8)
  | [] => []
  | j :: is =>
      if (guest j).here then
        match x.ready j with
        | some (.block buffer) => (if j = i then [buffer] else []) ++ x.reads guest i is
        | some .closed => []
        | _ => x.reads guest i is
      else x.reads guest i is

/-- What is read from him in a pass depends on who is there, and on nothing else
in the table. -/
theorem reads_congr {x : Pass} {guest guest' : Slot → Guest} (i : Slot) {is : List Slot}
    (h : ∀ j ∈ is, (guest' j).here = (guest j).here) :
    x.reads guest' i is = x.reads guest i is := by
  induction is with
  | nil => rfl
  | cons j is ih =>
      have hrest := ih fun k hk => h k (List.mem_cons_of_mem _ hk)
      simp only [Pass.reads, h j (List.mem_cons_self ..), hrest]

/-- On this seat is the user with this name, and nobody else has it. -/
structure Speaks (i : Slot) (user : CString) (e : Ear) (r : Room) : Prop where
  taken : (r i).taken = true
  name : (r i).name = some user
  alone : ∀ j, (r j).name = some user → j = i
  telnet : (r i).telnet = e.1
  linebuf : (r i).linebuf = e.2

section Speaks

variable {i k : Slot} {user : CString} {e : Ear} {r : Room}

/-- Screens are no part of it. -/
theorem Speaks.say (h : Speaks i user e r) (name msg : CString) :
    Speaks i user e (r.say name msg) where
  taken := (Seat.add_taken ..).trans h.taken
  name := (Seat.add_name ..).trans h.name
  alone := fun j hj => h.alone j ((Seat.add_name ..).symm.trans hj)
  telnet := (Seat.add_telnet ..).trans h.telnet
  linebuf := (Seat.add_linebuf ..).trans h.linebuf

/-- Another seat changes, and does not come to have his name. -/
theorem Speaks.put (h : Speaks i user e r) (hk : k ≠ i) {s : Seat} (hs : s.name ≠ some user) :
    Speaks i user e (r.put k s) := by
  have hi := Room.put_of_ne hk.symm r s
  refine ⟨by rw [hi]; exact h.taken, by rw [hi]; exact h.name, fun j hj => ?_,
    by rw [hi]; exact h.telnet, by rw [hi]; exact h.linebuf⟩
  by_cases hjk : j = k
  · rw [hjk, Room.put_self] at hj
    exact absurd hj hs
  · rw [Room.put_of_ne hjk] at hj
    exact h.alone j hj

/-- His own ear changes: the seat goes on being his as long as the name is. -/
theorem Speaks.own (h : Speaks i user e r) (e' : Ear) {s : Seat} (htaken : s.taken = true)
    (hname : s.name = some user) (htelnet : s.telnet = e'.1)
    (hlinebuf : s.linebuf = e'.2) : Speaks i user e' (r.put i s) := by
  refine ⟨by rw [Room.put_self]; exact htaken, by rw [Room.put_self]; exact hname, fun j hj => ?_,
    by rw [Room.put_self]; exact htelnet, by rw [Room.put_self]; exact hlinebuf⟩
  by_cases hji : j = i
  · exact hji
  · rw [Room.put_of_ne hji] at hj
    exact h.alone j hj

/-- Nobody else has his name. This is what keeps the others' messages out of his
part of the log. -/
theorem Speaks.other (h : Speaks i user e r) (hk : k ≠ i) : (r k).name ≠ some user :=
  fun hn => hk (h.alone k hn)

/-! ### Somebody else -/

/-- Somebody else goes; his own name is not what that one gives up. -/
theorem Speaks.farewell_other (h : Speaks i user e r) (hk : k ≠ i) (msg : CString) :
    Speaks i user e (r.farewell k msg) := by
  unfold Room.farewell
  split
  · exact h
  · exact (h.say _ msg).put hk (by simp)

/-- Nobody else gets the name, since it is in use: the server compares the whole
name, so as long as he has it there is no other. -/
theorem Speaks.login_other (h : Speaks i user e r) (hk : k ≠ i) (line : CString) :
    Speaks i user e (r.login k line) := by
  have hother := h.other hk
  unfold Room.login
  split_ifs with hlen huse
  · exact h.put hk (by rw [Seat.add_name]; exact hother)
  · exact h.put hk (by rw [Seat.add_name]; exact hother)
  · have hline : some line ≠ some user := by
      rintro ⟨⟩
      exact huse ⟨i, h.name⟩
    have hput := h.put hk (s := { r k with name := some line }) hline
    exact hput.put hk (by rw [Seat.add_name, Room.put_self]; exact hline)

/-- **A line of another user** leaves him as he is, whatever it says. -/
theorem Speaks.hear_other (h : Speaks i user e r) (hk : k ≠ i) (line : CString) :
    Speaks i user e (r.hear k line) := by
  unfold Room.hear
  split
  · exact h.login_other hk line
  · split
    · have hput := h.put hk (s := { r k with taken := false }) (h.other hk)
      exact hput.farewell_other hk has_quit
    · exact h.say _ line

/-- What another says is under another name. -/
theorem Speaks.spoken_other (h : Speaks i user e r) (hk : k ≠ i) (msg : CString) :
    ∀ m ∈ r.spoken k msg, m.1 ≠ user := by
  intro m hm
  unfold Room.spoken at hm
  split at hm
  · cases hm
  · next name hname =>
      rw [List.mem_singleton.mp hm]
      rintro rfl
      exact h.other hk hname

/-- A block of another's: characters and lines, and none of them his. -/
theorem Speaks.receive_other (h : Speaks i user e r) (hk : k ≠ i) (buffer : List UInt8) :
    Speaks i user e (r.receive k buffer) ∧ under user (r.receive_log k buffer) = [] := by
  have hput : ∀ r : Room, Speaks i user e r → ∀ ch,
      Speaks i user e (r.put k { r k with linebuf := (linebuffer_push (r k).linebuf ch).1 }) :=
    fun r h ch => h.put hk (h.other hk)
  have hhear : ∀ (r : Room) (l : Line), Speaks i user e r → Speaks i user e (r.hear_log k l).1 :=
    fun r l h => h.hear_other hk l.line
  -- character by character, and in each the lines it ends
  have htype : ∀ (r : Room) (ch : UInt8), Speaks i user e r → Speaks i user e (Room.type k r ch) :=
    fun r ch h => run_invariant _ (fun r l h => h.hear_other hk l.line) (hput r h ch) _
  have hout : ∀ (r : Room) (ch : UInt8), Speaks i user e r →
      ∀ m ∈ (r.type_log k ch).2, m.1 ≠ user :=
    fun r ch h => feed_outputs _ hhear (fun r l h => h.spoken_other hk _) (hput r h ch) _
  have hall : Speaks i user e
      (run (Room.type k) r (delivered (telnet_recv (r k).telnet buffer).2)) :=
    run_invariant _ htype h _
  refine ⟨?_, under_eq_nil ?_⟩
  · exact hall.put hk (hall.other hk)
  · refine feed_outputs _ (fun r ch h => ?_) hout h _
    rw [type_log_fst]
    exact htype r ch h

/-- A newcomer takes another seat, and has no name. -/
theorem Speaks.come (h : Speaks i user e r) (x : Pass) : Speaks i user e (r.come x) := by
  have hi := come_taken (x := x) h.taken
  refine ⟨by rw [hi]; exact h.taken, by rw [hi]; exact h.name, fun j hj => h.alone j ?_,
    by rw [hi]; exact h.telnet, by rw [hi]; exact h.linebuf⟩
  rw [← hj, Room.come]
  cases x.connection with
  | none => rfl
  | some _ =>
      cases r.free with
      | none => rfl
      | some k =>
          by_cases hjk : j = k
          · simp [Room.enter, Room.tell, hjk]
          · simp [Room.enter, Room.tell, Room.put_of_ne hjk]

/-! ### The user himself -/

/-- Lines that are not "quit" are said, one message each and in order. -/
theorem Speaks.hears (ls : List Line) (hquit : ∀ l ∈ ls, l.line.bytes ≠ ascii "quit") :
    ∀ {r : Room}, Speaks i user e r →
    Speaks i user e (feed (Room.hear_log i) r ls).1
      ∧ under user (feed (Room.hear_log i) r ls).2 = ls.map Line.line := by
  induction ls with
  | nil => exact fun h => ⟨h, rfl⟩
  | cons l ls ih =>
      intro r h
      have hl := hquit l (List.mem_cons_self ..)
      have hlog : r.hear_log i l = (r.say user l.line, [(user, l.line)]) := by
        simp only [Room.hear_log, Room.hear, Room.spoken, h.name, if_neg hl]
      obtain ⟨hend, hunder⟩ := ih (fun m hm => hquit m (List.mem_cons_of_mem _ hm))
        (h.say user l.line)
      rw [feed_cons, hlog]
      refine ⟨hend, ?_⟩
      rw [under_append, hunder]
      simp [under]

/-- Characters: the lines are those the buffer makes of them. The induction is
on the characters, the lines of each going before those of the rest. -/
theorem Speaks.types (bytes : List UInt8) : ∀ {e : Ear} {r : Room}, Speaks i user e r →
    (∀ l ∈ (feed linebuffer_push e.2 bytes).2, l.line.bytes ≠ ascii "quit") →
    Speaks i user (e.1, (feed linebuffer_push e.2 bytes).1) (feed (Room.type_log i) r bytes).1
      ∧ under user (feed (Room.type_log i) r bytes).2
        = (feed linebuffer_push e.2 bytes).2.map Line.line := by
  induction bytes with
  | nil => exact fun h _ => ⟨h, rfl⟩
  | cons ch bytes ih =>
      intro e r h hquit
      rw [feed_cons] at hquit
      simp only [List.mem_append] at hquit
      have hput := h.own (e.1, (linebuffer_push e.2 ch).1)
        (s := { r i with linebuf := (linebuffer_push e.2 ch).1 }) h.taken h.name h.telnet rfl
      have hlog : r.type_log i ch = feed (Room.hear_log i)
          (r.put i { r i with linebuf := (linebuffer_push e.2 ch).1 })
            (linebuffer_push e.2 ch).2 := by
        simp only [Room.type_log, h.linebuf]
      obtain ⟨hline, hunder⟩ :=
        hput.hears (linebuffer_push e.2 ch).2 fun l hl => hquit l (Or.inl hl)
      obtain ⟨hend, hunder'⟩ := ih hline fun l hl => hquit l (Or.inr hl)
      rw [feed_cons, feed_cons, hlog]
      refine ⟨hend, ?_⟩
      rw [under_append, hunder, hunder', List.map_append]

/-- **A block of his**: he has said the lines it makes. -/
theorem Speaks.receive (h : Speaks i user e r) (buffer : List UInt8)
    (hquit : ∀ line ∈ (listen e buffer).2, line.bytes ≠ ascii "quit") :
    Speaks i user (listen e buffer).1 (r.receive i buffer)
      ∧ under user (r.receive_log i buffer) = (listen e buffer).2 := by
  have hlines : ∀ l ∈ (feed linebuffer_push e.2 (delivered (telnet_recv e.1 buffer).2)).2,
      l.line.bytes ≠ ascii "quit" := fun l hl => hquit l.line (List.mem_map_of_mem hl)
  obtain ⟨hend, hunder⟩ := Speaks.types _ h hlines
  rw [feed_fst _ (type_log_fst i)] at hend
  rw [Room.receive_log, h.telnet]
  refine ⟨?_, hunder⟩
  have hown := hend.own (listen e buffer).1
    (s := { run (Room.type i) r (delivered (telnet_recv e.1 buffer).2) i with
      telnet := (telnet_recv e.1 buffer).1 }) hend.taken hend.name rfl hend.linebuf
  rw [Room.receive, h.telnet]
  exact hown

end Speaks

/-! ## 3. What is typed is read -/

/-- The loop over these users: what this one says in it are the lines of the
blocks it reads from him. -/
def Says (i : Slot) (user : CString) (x : Pass) (is : List Slot) (e : Ear) (r : Room) : Prop :=
  let p := feed listen e (x.reads (fun j => (r j).guest) i is)
  (∀ line ∈ p.2, line.bytes ≠ ascii "quit") →
    Speaks i user p.1 (Room.serve x is r) ∧ under user (Room.serve_log x is r) = p.2

section Says

variable {i k : Slot} {user : CString} {x : Pass} {is : List Slot} {e : Ear} {r : Room}

theorem Says.skip (hreads : x.reads (fun j => (r j).guest) i (k :: is)
      = x.reads (fun j => (r j).guest) i is)
    (hserve : Room.serve x (k :: is) r = Room.serve x is r)
    (hlog : Room.serve_log x (k :: is) r = Room.serve_log x is r) (h : Says i user x is e r) :
    Says i user x (k :: is) e r := by
  rw [Says, hreads, hserve, hlog]
  exact h

/-- Somebody without a name goes, so it is another. Nothing is said, and the
loop ends there. -/
theorem Says.closed (h : Speaks i user e r) (ht : (r k).taken = true)
    (hready : x.ready k = some .closed) (hname : (r k).name = none) :
    Says i user x (k :: is) e r := by
  have hki : k ≠ i := by
    rintro rfl
    rw [h.name] at hname
    cases hname
  have hgone := h.put hki (s := { r k with taken := false }) (h.other hki)
  simp only [Says, Pass.reads, Room.serve, Room.serve_log, Seat.guest_here, ht, if_true, hready]
  intro _
  exact ⟨hgone.farewell_other hki _, under_eq_nil (h.spoken_other hki _)⟩

/-- A block, of his or of another. In the first case his ear takes it in and the
log has its lines; in the second neither changes. -/
theorem Says.block {buffer : List UInt8} (h : Speaks i user e r) (hk : k ∉ is)
    (ht : (r k).taken = true) (hready : x.ready k = some (.block buffer))
    (hrest : ∀ {e' : Ear}, Speaks i user e' (r.receive k buffer) →
      Says i user x is e' (r.receive k buffer)) :
    Says i user x (k :: is) e r := by
  have hreads : x.reads (fun j => (r.receive k buffer j).guest) i is
      = x.reads (fun j => (r j).guest) i is := by
    refine reads_congr i fun j hj => ?_
    rw [(Apart.receive k r buffer j fun hjk => hk (hjk ▸ hj)).1]
  simp only [Says] at hrest
  rw [hreads] at hrest
  simp only [Says, Pass.reads, Room.serve, Room.serve_log, Seat.guest_here, ht, if_true, hready]
  intro hquit
  by_cases hki : k = i
  · rw [if_pos hki, List.singleton_append, feed_cons] at hquit ⊢
    simp only [List.mem_append] at hquit
    subst hki
    obtain ⟨hblock, hunder⟩ := h.receive buffer fun l hl => hquit l (Or.inl hl)
    obtain ⟨hend, hunder'⟩ := hrest hblock fun l hl => hquit l (Or.inr hl)
    exact ⟨hend, by rw [under_append, hunder, hunder']⟩
  · rw [if_neg hki, List.nil_append] at hquit ⊢
    obtain ⟨hblock, hunder⟩ := h.receive_other hki buffer
    obtain ⟨hend, hunder'⟩ := hrest hblock hquit
    exact ⟨hend, by rw [under_append, hunder, hunder', List.nil_append]⟩

end Says

/-- **The loop over the users**, one of whom is this one. It may end before it
comes to him, and then nothing was read from him in this pass. -/
theorem serve_says {i : Slot} {user : CString} {x : Pass} (is : List Slot) :
    is.Nodup → ∀ {e : Ear} {r : Room}, Speaks i user e r → x.Calm (fun j => (r j).guest) is →
    Says i user x is e r := by
  induction is with
  | nil => exact fun _ e r h _ _ => ⟨h, rfl⟩
  | cons k is ih =>
      intro hnodup e r h hcalm
      obtain ⟨hk, hnodup⟩ := List.nodup_cons.mp hnodup
      cases ht : (r k).taken with
      | false =>
          simp only [Pass.Calm, Seat.guest_here, ht, Bool.false_eq_true, if_false] at hcalm
          refine Says.skip ?_ ?_ ?_ (ih hnodup h hcalm)
          · simp only [Pass.reads, Seat.guest_here, ht, Bool.false_eq_true, if_false]
          · simp only [Room.serve, ht, Bool.false_eq_true, if_false]
          · simp only [Room.serve_log, ht, Bool.false_eq_true, if_false]
      | true =>
          simp only [Pass.Calm, Seat.guest_here, ht, if_true] at hcalm
          cases hready : x.ready k with
          | none =>
              rw [hready] at hcalm
              refine Says.skip ?_ ?_ ?_ (ih hnodup h hcalm)
              · simp only [Pass.reads, Seat.guest_here, ht, if_true, hready]
              · simp only [Room.serve, ht, if_true, hready]
              · simp only [Room.serve_log, ht, if_true, hready]
          | some received =>
              rw [hready] at hcalm
              cases received with
              | block buffer =>
                  refine Says.block h hk ht hready fun h' => ih hnodup h' ?_
                  exact (calm_apart (Apart.receive k r buffer) hk).mpr hcalm.2
              | closed => exact Says.closed h ht hready hcalm
              | error errno =>
                  refine Says.skip ?_ ?_ ?_ (ih hnodup h hcalm)
                  · simp only [Pass.reads, Seat.guest_here, ht, if_true, hready]
                  · simp only [Room.serve, ht, if_true, hready]
                  · simp only [Room.serve_log, ht, if_true, hready]

/-- A pass of the room, and the blocks of this user it reads. -/
def Room.pass_reads (i : Slot) (r : Room) (x : Pass) : Room × List (List UInt8) :=
  (r.pass x, x.reads (fun j => (r.come x j).guest) i (List.finRange MAX_USERS))

/-- **A run of the room**: his part of the log is what he sent, whatever else
happens. The hypothesis on "quit" is about what he sends as a whole, so it is
cut along the passes as the blocks are. -/
theorem run_says {i : Slot} {user : CString} (passes : List Pass) :
    ∀ {e : Ear} {r : Room}, Speaks i user e r → Along Room.pass Room.Orderly r passes →
    (∀ line ∈ (feed listen e (feed (Room.pass_reads i) r passes).2).2,
      line.bytes ≠ ascii "quit") →
    under user (feed Room.pass_log r passes).2
      = (feed listen e (feed (Room.pass_reads i) r passes).2).2 := by
  induction passes with
  | nil => exact fun _ _ _ => rfl
  | cons x passes ih =>
      intro e r h horderly hquit
      rw [feed_cons, feed_append] at hquit
      simp only [List.mem_append] at hquit
      obtain ⟨hpass, hunder⟩ := serve_says (List.finRange MAX_USERS) (List.nodup_finRange _)
        (h.come x) horderly.1.2 fun l hl => hquit l (Or.inl hl)
      have hrest := ih hpass horderly.2 fun l hl => hquit l (Or.inr hl)
      rw [feed_cons, feed_cons, feed_append, under_append]
      exact congrArg₂ (· ++ ·) hunder hrest

/-- A pass of the program, and the blocks of this user it reads. -/
def Stage.poll_reads (i : Slot) (st : Stage) (x : Pass) : Stage × List (List UInt8) :=
  (st.poll x, match st with
    | .up w => x.reads (x.guest w) i (List.finRange MAX_USERS)
    | .down _ => [])

/-- The program reads what the room does: who is there when the loop comes to
him is the same in both. -/
theorem feed_reads (i : Slot) (passes : List Pass) (hworks : ∀ x ∈ passes, x.Works) :
    ∀ {w : Users} {r : Room}, InRoom w r → Along Stage.poll Stage.Orderly (.up w) passes →
    (feed (Stage.poll_reads i) (.up w) passes).2 = (feed (Room.pass_reads i) r passes).2 := by
  induction passes with
  | nil => exact fun _ _ => rfl
  | cons x passes ih =>
      intro w r h horderly
      obtain ⟨w', hup, h'⟩ :=
        poll_up ((pass_shows (hworks x (List.mem_cons_self ..)) h).1 horderly.1)
      have hrest := horderly.2
      rw [hup] at hrest
      have hreads : x.reads (x.guest w) i (List.finRange MAX_USERS)
          = x.reads (fun j => (r.come x j).guest) i (List.finRange MAX_USERS) :=
        (reads_congr i fun j _ => (guest_like h x j).here).symm
      rw [feed_cons, feed_cons]
      simp only [Stage.poll_reads, Room.pass_reads, hup, hreads]
      exact congrArg _ (ih (fun y hy => hworks y (List.mem_cons_of_mem _ hy)) h' hrest)

/-- The lines a user has typed, as text. -/
def typed (lines : List CString) : List UInt8 := lines.flatMap fun line => line.bytes ++ [10]

/-- Bytes that read as these lines, in any blocks, are these lines at an ear
that has none begun. First the parser, which gives back the text, and then the
line buffer, which gives back the lines. -/
theorem listen_typed {t : Telnet} (hs : t.state = .DATA) (hz : Sized t) {lines : List CString}
    (hlines : ∀ line ∈ lines, 10 ∉ line.bytes ∧ line.bytes.length < LINEBUFFER_SIZE)
    {blocks : List (List UInt8)} (hsent : Utters blocks.flatten (network (typed lines))) :
    (feed listen (t, .clear _) blocks).2 = lines := by
  rw [feed_listen]
  simp only
  rw [hsent.delivered hs hz rfl, typed, feed_push_lines lines hlines]
  simp [Function.comp_def]

/-- **What is typed is read**: take any stretch of an orderly run on working
connections, and a user who has a name, is connected and between two commands
when it begins, with no line begun. Let the bytes the server reads from him in
the stretch, in whatever blocks and between whatever the others do, read as some
lines. Then the messages under his name in the log of the stretch are just these
lines, in order, and the log is what whoever stays connected reads. -/
theorem typed_is_read (before typing : List Pass) (hworks : ∀ x ∈ before ++ typing, x.Works)
    (horderly : Along Stage.poll Stage.Orderly start (before ++ typing)) {w : Users}
    (hup : run Stage.poll start before = .up w) {i : Slot} {user : CString}
    (hname : (w i).name = some user) (hconnected : (w i).sock.valid = true)
    (hlinebuf : (w i).linebuf = .clear _) (hstate : (w i).telnet.state = .DATA)
    (lines : List CString)
    (hlines : ∀ line ∈ lines,
      10 ∉ line.bytes ∧ line.bytes.length < LINEBUFFER_SIZE ∧ line.bytes ≠ ascii "quit")
    (hsent : Utters (feed (Stage.poll_reads i) (.up w) typing).2.flatten (network (typed lines))) :
    let r := before.foldl Room.pass Room.init
    let r' := typing.foldl Room.pass r
    let log := (feed Room.pass_log r typing).2
    under user log = lines
      ∧ ∃ w', run Stage.poll start (before ++ typing) = .up w'
        ∧ ∀ j, (w j).sock.valid = true →
          Along Stage.poll (fun st x => (st.poll x).Connected j) (.up w) typing →
          OnScreen (w j).sock true (r j).screen ∧ OnScreen (w' j).sock true (r' j).screen
            ∧ Grows (r j).screen (r' j).screen log := by
  intro r r' log
  have hw : ∀ x ∈ typing, x.Works := fun x hx => hworks x (List.mem_append_right _ hx)
  obtain ⟨w₀, w', hup₀, hup', h, h', hafter⟩ := run_stretch before typing hworks horderly
  obtain rfl : w₀ = w := Stage.up.inj (hup₀.symm.trans hup)
  -- nobody else has his name
  have hnamed : Named w₀ := by
    have hinv := run_invariant Stage.poll (fun st x => step_named st (.poll x)) start_named before
    exact hinv w₀ hup
  have hspeaks : Speaks i user ((r i).telnet, .clear _) r := by
    refine ⟨(h i).sock.valid.symm.trans hconnected, (h i).name.symm.trans hname,
      fun j hj => ?_, rfl, (h i).linebuf.symm.trans hlinebuf⟩
    exact hnamed.unique j i user ((h j).name.trans hj) hname
  rw [feed_reads i typing hw h hafter] at hsent
  have hlisten := listen_typed ((h i).telnet.state.symm.trans hstate) (h i).telnet.left
    (fun line hline => ⟨(hlines line hline).1, (hlines line hline).2.1⟩) hsent
  refine ⟨?_, w', hup', fun j hj hstays => stretch_hears hw h h' hafter hj hstays⟩
  have hsays := run_says typing hspeaks ((along_orderly_iff typing hw h).mp hafter)
  rw [hlisten] at hsays
  exact hsays fun line hline => (hlines line hline).2.2

/-- Bob and Amy come and log in. -/
def logged_in : List Pass := [comes, comes, types 0 "bob\r\n", types 1 "amy\r\n"]

/-- Bob types "hi", and Amy a line of her own in the middle of it. -/
def chatting : List Pass := [types 0 "h", types 1 "yo\r\n", types 0 "i\r\n"]

/-- Bob says `hi`, in two blocks, while Amy types in between. -/
theorem typed_is_read_hi :
    let bob : CString := ⟨ascii "bob", by decide⟩
    let amy : CString := ⟨ascii "amy", by decide⟩
    ∃ w' old new, run Stage.poll start (logged_in ++ chatting) = .up w'
      ∧ OnScreen (w' 1).sock true (old ++ new) ∧ under bob (heard new) = [⟨ascii "hi", by decide⟩]
      ∧ under amy (heard new) = [⟨ascii "yo", by decide⟩] := by
  intro bob amy
  have hworks : ∀ x ∈ logged_in ++ chatting, x.Works := works (by simp [logged_in, chatting, types])
  have hw : ∀ x ∈ chatting, x.Works := fun x hx => hworks x (List.mem_append_right _ hx)
  have horderly := (along_orderly_iff _ hworks init_inRoom).mpr (by decide +kernel)
  obtain ⟨w, w', hup, hup', h, h', hafter⟩ := run_stretch logged_in chatting hworks horderly
  have hroom : (logged_in.foldl Room.pass Room.init 0).name = some bob
      ∧ (logged_in.foldl Room.pass Room.init 0).taken = true
      ∧ (logged_in.foldl Room.pass Room.init 0).linebuf.bytes = []
      ∧ (logged_in.foldl Room.pass Room.init 0).telnet.state = .DATA
      ∧ (logged_in.foldl Room.pass Room.init 1).taken = true := by
    decide +kernel
  have hstretch :
      (feed (Room.pass_reads 0) (logged_in.foldl Room.pass Room.init) chatting).2.flatten
        = posted (telnet_printf (typed [⟨ascii "hi", by decide⟩]))
      ∧ under amy (feed Room.pass_log (logged_in.foldl Room.pass Room.init) chatting).2
        = [⟨ascii "yo", by decide⟩]
      ∧ Along Room.pass (fun r x => (r.pass x 1).taken = true)
        (logged_in.foldl Room.pass Room.init) chatting := by
    decide +kernel
  obtain ⟨hname, htaken, hlinebuf, hstate, htaken'⟩ := hroom
  obtain ⟨hreads, hamy, hstays⟩ := hstretch
  rw [← feed_reads 0 chatting hw h hafter] at hreads
  have hsent : Utters (feed (Stage.poll_reads 0) (.up w) chatting).2.flatten
      (network (typed [⟨ascii "hi", by decide⟩])) := by
    rw [hreads]
    exact utters_printf _
  obtain ⟨hbob, w'', hup'', hread⟩ := typed_is_read logged_in chatting hworks horderly hup
    ((h 0).name.trans hname) ((h 0).sock.valid.trans htaken)
    ((h 0).linebuf.trans (LineBuffer.ext hlinebuf)) ((h 0).telnet.state.trans hstate)
    [⟨ascii "hi", by decide⟩] (by decide +kernel) hsent
  obtain ⟨-, hnew, new, hscreen, hheard⟩ := hread 1 ((h 1).sock.valid.trans htaken')
    ((along_connected_iff chatting hw 1 h hafter).mpr hstays)
  rw [hscreen] at hnew
  refine ⟨w'', _, new, hup'', hnew, ?_, ?_⟩
  · rw [hheard]
    exact hbob
  · rw [hheard]
    exact hamy

end AutoMag.Chatd
