/-
`Libtelnet/Peers.lean` -- two ends that both run the library.

Each end has its tracker and its table of supported options; between them are two wires
of bytes. What happens is any interleaving of requests (`telnet_negotiate`), of the other
calls of the applications, and of bytes arriving, one at a time: a block is as many
arrivals, since neither the tracker nor what goes out sees how a stream is cut
(`telnet_recv_fst`, `posted_telnet_recv`). For an option and a direction the two ends and
what the wires hold about it are a link of the Q method (`link`), and everything that
happens is a move of it, or none. What is proved of links is then true of the ends.
-/
import AutoMag.Libtelnet.Halves
import AutoMag.Libtelnet.RoundTrip

set_option autoImplicit false

namespace AutoMag.Libtelnet

open AutoMag.Machine AutoMag.QMethod

/-! ## 1. The two ends -/

/-- The trackers, and the bytes under way from `a` to `b` and back. -/
structure Peers where
  a : Telnet
  b : Telnet
  ab : List UInt8
  ba : List UInt8

/-- What happens at an end. -/
inductive Deed where
  | ask (cmd telopt : UInt8)
  | call (c : Call)
  | arrive

namespace Peers

def start (telopts_a telopts_b : List Telopt) : Peers :=
  ⟨telnet_init telopts_a 0, telnet_init telopts_b 0, [], []⟩

/-- The same, seen from the other end. -/
def swap (s : Peers) : Peers := ⟨s.b, s.a, s.ba, s.ab⟩

/-- It happens at `a`. -/
def act (s : Peers) : Deed → Peers
  | .ask cmd telopt =>
      let r := telnet_negotiate s.a cmd telopt
      { s with a := r.1, ab := s.ab ++ posted r.2 }
  | .call c => { s with ab := s.ab ++ posted c.events }
  | .arrive =>
      match s.ba with
      | [] => s
      | byte :: ba =>
          let r := telnet_recv s.a [byte]
          { s with a := r.1, ab := s.ab ++ posted r.2, ba := ba }

/-- It happens at `a` (`true`) or at `b`. -/
def step (s : Peers) (d : Bool × Deed) : Peers :=
  if d.1 then s.act d.2 else (s.swap.act d.2).swap

/-- The option command that an arrival at `a` completes. -/
def completes (s : Peers) : Deed → List (State × UInt8)
  | .arrive =>
      match s.ba with
      | [] => []
      | byte :: _ => if s.a.state.isVerb then [(s.a.state, byte)] else []
  | _ => []

/-- The same for either end. -/
def heard (s : Peers) (d : Bool × Deed) : List (State × UInt8) :=
  if d.1 then s.completes d.2 else s.swap.completes d.2

end Peers

/-- Requests are for options of `S`, and the other calls keep to what they have
to. -/
def Deed.Ok (S : Finset UInt8) : Deed → Prop
  | .ask _ telopt => telopt ∈ S
  | .call c => c.Ok
  | .arrive => True

/-! ## 2. A byte arrives -/

/-- What goes out is no data event's doing: only `SEND` events are written. -/
theorem posted_control (evs : List Event) : posted (control evs) = posted evs := by
  induction evs with
  | nil => rfl
  | cons ev evs ih =>
      cases ev with
      | DATA bytes => exact ih
      | SEND bytes => exact congrArg (bytes ++ ·) ih
      | _ => exact ih

/-- So the replies to a block are those to its bytes, one after the other. This
is why the peers may take the bytes off the wire one at a time. -/
theorem posted_telnet_recv (t : Telnet) (bs : List UInt8) :
    posted (telnet_recv t bs).2 = posted (feed byte_step t bs).2 := by
  rw [← posted_control, telnet_recv_control, posted_control]

theorem telnet_recv_byte (t : Telnet) (b : UInt8) :
    (telnet_recv t [b]).1 = (process_byte t b).telnet
      ∧ posted (telnet_recv t [b]).2 = posted (process_byte t b).events := by
  rw [telnet_recv_fst, posted_telnet_recv]
  refine ⟨rfl, ?_⟩
  change posted ((process_byte t b).events ++ []) = _
  rw [List.append_nil]

/-! ## 3. What the wires carry -/

/-- Bytes that hold these commands for any tracker between two commands, and
leave it between two commands. -/
def Carries (bytes : List UInt8) (cmds : List (State × UInt8)) : Prop :=
  ∀ t : Telnet, t.state = .DATA → Sized t →
    commands t bytes = cmds ∧ (feed byte_step t bytes).1.state = .DATA

/-- Data, subnegotiations and plain commands carry no option command to the
other end. -/
theorem Call.carries {c : Call} (h : c.Ok) : Carries (posted c.events) [] := by
  intro t hs hz
  obtain ⟨u, hgo, hu, _⟩ := Call.said h t hs hz
  exact ⟨hgo.quiet, by rw [hgo.after]; exact hu⟩

/-- The parser's states for the verbs. -/
def upState (on : Bool) : State := if on then .WILL else .WONT

def downState (on : Bool) : State := if on then .DO else .DONT

/-- An option command, from between two commands: three bytes, and the third
completes it. -/
theorem carries_command {t : Telnet} (hs : t.state = .DATA) {verb : UInt8} {st : State}
    (hverb : st.isVerb)
    (hiac : iac_byte { t with state := .IAC } verb = { telnet := { t with state := st } })
    (o : UInt8) : commands t [TELNET_IAC, verb, o] = [(st, o)]
      ∧ (feed byte_step t [TELNET_IAC, verb, o]).1.state = .DATA := by
  have hone : (process_byte t TELNET_IAC).telnet = { t with state := .IAC } := by
    simp [process_byte, hs]
  have htwo : (process_byte { t with state := .IAC } verb).telnet = { t with state := st } := by
    simp [process_byte, hiac]
  have hthree := (process_byte_verb { t with state := st } o hverb).1
  refine ⟨?_, ?_⟩
  · rw [commands_cons, hone, commands_cons, htwo, commands_cons, hs, if_pos hverb]
    rfl
  · change
      (process_byte (process_byte (process_byte t TELNET_IAC).telnet verb).telnet o).telnet.state
        = _
    rw [hone, htwo, hthree]

/-- What an end says about its own half: one command at most, a WILL or a
WONT. -/
theorem carries_us (ons : List Bool) (hlen : ons.length ≤ 1) (o : UInt8) :
    Carries (ons.flatMap fun on => [TELNET_IAC, usVerb on, o])
      (ons.map fun on => (upState on, o)) := by
  intro t hs _
  match ons, hlen with
  | [], _ => exact ⟨rfl, hs⟩
  | [true], _ => exact carries_command hs rfl rfl o
  | [false], _ => exact carries_command hs rfl rfl o

/-- What it says about the other's: a DO or a DONT. -/
theorem carries_him (ons : List Bool) (hlen : ons.length ≤ 1) (o : UInt8) :
    Carries (ons.flatMap fun on => [TELNET_IAC, himVerb on, o])
      (ons.map fun on => (downState on, o)) := by
  intro t hs _
  match ons, hlen with
  | [], _ => exact ⟨rfl, hs⟩
  | [true], _ => exact carries_command hs rfl rfl o
  | [false], _ => exact carries_command hs rfl rfl o

theorem Sized.feed {t : Telnet} (h : Sized t) (bs : List UInt8) :
    Sized (Machine.feed byte_step t bs).1 := by
  induction bs generalizing t with
  | nil => exact h
  | cons b bs ih => exact ih ((SameParse.refl h).step b).1.left

/-- A tracker and the wire it receives from: whole commands, about options of
`S`. -/
structure Receives (S : Finset UInt8) (t : Telnet) (wire : List UInt8) : Prop where
  ends : End S t
  sized : Sized t
  whole : (feed byte_step t wire).1.state = .DATA
  known : ∀ c ∈ commands t wire, c.2 ∈ S

namespace Receives

variable {S : Finset UInt8} {t : Telnet} {wire : List UInt8}

/-- Whole commands are put on the wire. They are put behind what is there, which
ends between two commands, so they are read as they were meant. -/
theorem append (h : Receives S t wire) {bytes : List UInt8} {cmds : List (State × UInt8)}
    (hc : Carries bytes cmds) (hS : ∀ c ∈ cmds, c.2 ∈ S) :
    Receives S t (wire ++ bytes) ∧ commands t (wire ++ bytes) = commands t wire ++ cmds := by
  obtain ⟨hcmds, hstate⟩ := hc _ h.whole (h.sized.feed wire)
  have happend : commands t (wire ++ bytes) = commands t wire ++ cmds := by
    rw [commands_append, hcmds]
  refine ⟨⟨h.ends, h.sized, by rw [feed_append]; exact hstate, ?_⟩, happend⟩
  rw [happend]
  intro c hm
  exact (List.mem_append.mp hm).elim (h.known c) (hS c)

/-- The tracker changes, but not in how it parses. So the commands under way are
what they were, although they will be answered otherwise. -/
theorem change (h : Receives S t wire) {u : Telnet} (hp : SameParse t u) (hu : End S u) :
    Receives S u wire ∧ commands u wire = commands t wire := by
  obtain ⟨hcmds, hstate⟩ := hp.commands wire
  exact ⟨⟨hu, hp.right, hstate.trans h.whole, hcmds ▸ h.known⟩, hcmds⟩

end Receives

/-- Neither of the two functions that negotiate touches what the parser goes by.
It follows that a request may be made while a command of the other end is half
read. -/
theorem sameParse_set {t : Telnet} (h : Sized t) (o us him : UInt8) :
    SameParse t (set_rfc1143 t o us him) := by
  unfold set_rfc1143
  split <;> exact ⟨rfl, fun _ => ⟨rfl, rfl⟩, h, ⟨h.le, h.mem⟩⟩

theorem sameParse_telnet_negotiate {t : Telnet} (h : Sized t) (cmd o : UInt8) :
    SameParse t (telnet_negotiate t cmd o).1 := by
  unfold telnet_negotiate
  simp only
  repeat' split
  all_goals first
    | exact SameParse.refl h
    | exact sameParse_set h o _ _

/-- Any other command does nothing: `telnet_negotiate` has a case for each of
the four verbs and no default. -/
theorem telnet_negotiate_other {S : Finset UInt8} {t : Telnet} (h : End S t)
    {cmd : UInt8} (o : UInt8) (hus : ∀ on, cmd ≠ usVerb on) (hhim : ∀ on, cmd ≠ himVerb on) :
    telnet_negotiate t cmd o = (t, []) := by
  have hm : ¬ (t.flags &&& TELNET_FLAG_PROXY ≠ 0) := not_not.mpr h.mode
  have h1 : cmd ≠ TELNET_WILL := hus true
  have h2 : cmd ≠ TELNET_WONT := hus false
  have h3 : cmd ≠ TELNET_DO := hhim true
  have h4 : cmd ≠ TELNET_DONT := hhim false
  simp only [telnet_negotiate, if_neg hm, h1, h2, h3, h4, if_false]

/-- A request sends one command at most. -/
theorem ask_length (on : Bool) (h : Half) : (h.ask on).2.length ≤ 1 := by
  revert on h
  decide

/-- And so does an arrival. -/
theorem hear_length (accepts resends on : Bool) (h : Half) :
    (h.hear accepts resends on).2.length ≤ 1 := by
  revert accepts resends on h
  decide

/-! ## 4. The links -/

/-- What a list of commands says of an option to the end that sees it at the
other. -/
def ups (o : UInt8) (cmds : List (State × UInt8)) : List Bool :=
  cmds.filterMap fun c => if c = (.WILL, o) then some true
    else if c = (.WONT, o) then some false else none

/-- What it says to the end that has it. -/
def downs (o : UInt8) (cmds : List (State × UInt8)) : List Bool :=
  cmds.filterMap fun c => if c = (.DO, o) then some true
    else if c = (.DONT, o) then some false else none

/-- The commands on a wire that concern one half of one option, in their
order. -/
theorem ups_append (o : UInt8) (as bs : List (State × UInt8)) :
    ups o (as ++ bs) = ups o as ++ ups o bs :=
  List.filterMap_append ..

theorem downs_append (o : UInt8) (as bs : List (State × UInt8)) :
    downs o (as ++ bs) = downs o as ++ downs o bs := List.filterMap_append ..

/-- A command at the head of the list: it is about one half of one option, and
no other link sees it. -/
theorem ups_cons (o o' : UInt8) (on : Bool) (cmds : List (State × UInt8)) :
    ups o' ((upState on, o) :: cmds) = (if o' = o then [on] else []) ++ ups o' cmds
      ∧ downs o' ((upState on, o) :: cmds) = downs o' cmds := by
  by_cases ho : o' = o
  · subst ho
    cases on <;> simp [ups, downs, upState]
  · cases on <;> simp [ups, downs, upState, ho, Ne.symm ho]

theorem downs_cons (o o' : UInt8) (on : Bool) (cmds : List (State × UInt8)) :
    downs o' ((downState on, o) :: cmds) = (if o' = o then [on] else []) ++ downs o' cmds
      ∧ ups o' ((downState on, o) :: cmds) = ups o' cmds := by
  by_cases ho : o' = o
  · subst ho
    cases on <;> simp [ups, downs, downState]
  · cases on <;> simp [ups, downs, downState, ho, Ne.symm ho]

/-- The commands one move puts on the wire are on one link, in one direction. -/
theorem ups_map (o o' : UInt8) (ons : List Bool) :
    ups o' (ons.map fun on => (upState on, o)) = (if o' = o then ons else [])
      ∧ downs o' (ons.map fun on => (upState on, o)) = [] := by
  induction ons with
  | nil => simp [ups, downs]
  | cons on ons ih =>
      rw [List.map_cons, (ups_cons ..).1, (ups_cons ..).2, ih.1, ih.2]
      split <;> exact ⟨rfl, rfl⟩

theorem downs_map (o o' : UInt8) (ons : List Bool) :
    downs o' (ons.map fun on => (downState on, o)) = (if o' = o then ons else [])
      ∧ ups o' (ons.map fun on => (downState on, o)) = [] := by
  induction ons with
  | nil => simp [ups, downs]
  | cons on ons ih =>
      rw [List.map_cons, (downs_cons ..).1, (downs_cons ..).2, ih.1, ih.2]
      split <;> exact ⟨rfl, rfl⟩

namespace Peers

/-- The link of an option that `a` has and `b` sees at `a`. -/
def link (s : Peers) (o : UInt8) : Link where
  us := (halves s.a o).1
  him := (halves s.b o).2
  up := ups o (commands s.b s.ab)
  down := downs o (commands s.a s.ba)

/-- Both ends receive whole commands. -/
structure Fit (S : Finset UInt8) (s : Peers) : Prop where
  left : Receives S s.a s.ba
  right : Receives S s.b s.ab

theorem Fit.swap {S : Finset UInt8} {s : Peers} (h : s.Fit S) : s.swap.Fit S := ⟨h.right, h.left⟩

/-- What is done at `a` as a move of its own link. -/
def ownMove (s : Peers) (o : UInt8) : Deed → Option Move
  | .ask cmd telopt =>
      if telopt ≠ o then none
      else if cmd = TELNET_WILL then some (.askUs true)
      else if cmd = TELNET_WONT then some (.askUs false)
      else none
  | .call _ => none
  | .arrive =>
      match s.ba with
      | [] => none
      | byte :: _ => if byte = o ∧ (s.a.state = .DO ∨ s.a.state = .DONT) then some .hearUs else none

/-- And as a move of the link that `b` has. -/
def otherMove (s : Peers) (o : UInt8) : Deed → Option Move
  | .ask cmd telopt =>
      if telopt ≠ o then none
      else if cmd = TELNET_DO then some (.askHim true)
      else if cmd = TELNET_DONT then some (.askHim false)
      else none
  | .call _ => none
  | .arrive =>
      match s.ba with
      | [] => none
      | byte :: _ => if byte = o ∧ (s.a.state = .WILL ∨ s.a.state = .WONT) then some .hearHim
        else none

/-- The link after a move, or none. -/
def moved (acceptsUs acceptsHim : Bool) (l : Link) : Option Move → Link
  | none => l
  | some mv => QMethod.step acceptsUs acceptsHim false l mv

/-! ## 5. What is done is a move, or none -/

theorem known_map {S : Finset UInt8} {o : UInt8} (ho : o ∈ S) (st : Bool → State)
    (ons : List Bool) :
    ∀ c ∈ ons.map fun on => (st on, o), c.2 ∈ S := by
  intro c hc
  obtain ⟨on, _, rfl⟩ := List.mem_map.mp hc
  exact ho

section Moves

variable {S : Finset UInt8} {s : Peers} (h : s.Fit S)
include h

/-- `a` changes its own half of an option, and says so. What the two links of
the option become is in the conclusion, and all other links stay. -/
theorem fit_us {a' : Telnet} {ba' : List UInt8} (hrec : Receives S a' ba') {o : UInt8} (ho : o ∈ S)
    {us' : Half}
    (hhalves : ∀ o', halves a' o' = if o' = o then (us', (halves s.a o).2) else halves s.a o')
    {ons : List Bool} (hlen : ons.length ≤ 1) {bytes : List UInt8}
    (hbytes : bytes = ons.flatMap fun on => [TELNET_IAC, usVerb on, o]) :
    (Peers.mk a' s.b (s.ab ++ bytes) ba').Fit S
      ∧ ∀ o', (Peers.mk a' s.b (s.ab ++ bytes) ba').link o'
            = ⟨if o' = o then us' else (halves s.a o').1, (halves s.b o').2,
                (s.link o').up ++ (if o' = o then ons else []), downs o' (commands a' ba')⟩
          ∧ (Peers.mk a' s.b (s.ab ++ bytes) ba').swap.link o'
            = ⟨(halves s.b o').1, (halves s.a o').2, ups o' (commands a' ba'),
              (s.swap.link o').down⟩ := by
  subst hbytes
  obtain ⟨hright, hcmds⟩ := h.right.append (carries_us ons hlen o) (known_map ho upState ons)
  refine ⟨⟨hrec, hright⟩, fun o' => ⟨?_, ?_⟩⟩
  · simp only [link, hcmds, ups_append, (ups_map o o' ons).1, hhalves]
    split <;> rfl
  · simp only [link, swap, hcmds, downs_append, (ups_map o o' ons).2, hhalves, List.append_nil]
    split
    · next he => rw [he]
    · rfl

/-- `a` changes the half it holds of the other end: the same on the other link,
in the other direction. -/
theorem fit_him {a' : Telnet} {ba' : List UInt8} (hrec : Receives S a' ba') {o : UInt8} (ho : o ∈ S)
    {him' : Half}
    (hhalves : ∀ o', halves a' o' = if o' = o then ((halves s.a o).1, him') else halves s.a o')
    {ons : List Bool} (hlen : ons.length ≤ 1) {bytes : List UInt8}
    (hbytes : bytes = ons.flatMap fun on => [TELNET_IAC, himVerb on, o]) :
    (Peers.mk a' s.b (s.ab ++ bytes) ba').Fit S
      ∧ ∀ o', (Peers.mk a' s.b (s.ab ++ bytes) ba').link o'
            = ⟨(halves s.a o').1, (halves s.b o').2, (s.link o').up, downs o' (commands a' ba')⟩
          ∧ (Peers.mk a' s.b (s.ab ++ bytes) ba').swap.link o'
            = ⟨(halves s.b o').1, if o' = o then him' else (halves s.a o').2,
                ups o' (commands a' ba'),
                (s.swap.link o').down ++ (if o' = o then ons else [])⟩ := by
  subst hbytes
  obtain ⟨hright, hcmds⟩ := h.right.append (carries_him ons hlen o) (known_map ho downState ons)
  refine ⟨⟨hrec, hright⟩, fun o' => ⟨?_, ?_⟩⟩
  · simp only [link, hcmds, ups_append, (downs_map o o' ons).2, hhalves, List.append_nil]
    split
    · next he => rw [he]
    · rfl
  · simp only [link, swap, hcmds, downs_append, (downs_map o o' ons).1, hhalves]
    split <;> rfl

/-- What the deed comes to for both links of every option. -/
def Follows (S : Finset UInt8) (s : Peers) (d : Deed) : Prop :=
  (s.act d).Fit S ∧ ∀ o,
    (s.act d).link o
        = moved (check_telopt s.a o true) (check_telopt s.b o false) (s.link o) (s.ownMove o d)
      ∧ (s.act d).swap.link o
        = moved (check_telopt s.b o true) (check_telopt s.a o false)
          (s.swap.link o) (s.otherMove o d)

/-- A call that does not negotiate: the wire grows, and no link moves. -/
theorem follows_call {c : Call} (hc : c.Ok) : Follows S s (.call c) := by
  obtain ⟨hright, hcmds⟩ := h.right.append (Call.carries hc) (by simp)
  refine ⟨⟨h.left, hright⟩, fun o => ⟨?_, ?_⟩⟩
  · simp only [act, link, hcmds, List.append_nil, ownMove, moved]
  · simp only [act, link, swap, hcmds, List.append_nil, otherMove, moved]

/-- A request about the own half is the link's `askUs`. -/
theorem follows_ask_us (hS : S.card < 64) {o : UInt8} (ho : o ∈ S) (on : Bool) :
    Follows S s (.ask (usVerb on) o) := by
  have hchange := h.left.ends.ask_us hS ho on
  obtain ⟨hrec, hcmds⟩ :=
    h.left.change (sameParse_telnet_negotiate h.left.sized (usVerb on) o) hchange.fst
  obtain ⟨hfit, hlinks⟩ := fit_us h hrec ho hchange.halves (ask_length on _) hchange.posted
  refine ⟨hfit, fun o' => ?_⟩
  obtain ⟨hown, hother⟩ := hlinks o'
  have hotherMove : s.otherMove o' (.ask (usVerb on) o) = none := by
    cases on <;> simp only [otherMove] <;> split <;> rfl
  refine ⟨hown.trans ?_, hother.trans ?_⟩
  · rw [hcmds]
    by_cases ho' : o' = o
    · subst ho'
      cases on <;> simp [ownMove, usVerb, moved, QMethod.step, link, TELNET_WILL, TELNET_WONT]
    · have hne : o ≠ o' := Ne.symm ho'
      simp [ownMove, hne, ho', moved, link]
  · rw [hotherMove, hcmds]
    rfl

/-- And one about the other's is `askHim` of the link seen from there. -/
theorem follows_ask_him (hS : S.card < 64) {o : UInt8} (ho : o ∈ S) (on : Bool) :
    Follows S s (.ask (himVerb on) o) := by
  have hchange := h.left.ends.ask_him hS ho on
  obtain ⟨hrec, hcmds⟩ :=
    h.left.change (sameParse_telnet_negotiate h.left.sized (himVerb on) o) hchange.fst
  obtain ⟨hfit, hlinks⟩ := fit_him h hrec ho hchange.halves (ask_length on _) hchange.posted
  refine ⟨hfit, fun o' => ?_⟩
  obtain ⟨hown, hother⟩ := hlinks o'
  have hownMove : s.ownMove o' (.ask (himVerb on) o) = none := by
    cases on <;> simp only [ownMove] <;> split <;> rfl
  refine ⟨hown.trans ?_, hother.trans ?_⟩
  · rw [hownMove, hcmds]
    rfl
  · rw [hcmds]
    by_cases ho' : o' = o
    · subst ho'
      cases on <;>
        simp [otherMove, himVerb, moved, QMethod.step, link, swap, TELNET_DO, TELNET_DONT]
    · have hne : o ≠ o' := Ne.symm ho'
      simp [otherMove, hne, ho', moved, link, swap]

/-- A byte that completes no option command. The parser moves on and replies
nothing; the commands under way are still the same. -/
theorem follows_quiet {byte : UInt8} {ba : List UInt8} (hba : s.ba = byte :: ba)
    (hverb : s.a.state.isVerb = false) : Follows S s .arrive := by
  obtain ⟨hfst, hposted⟩ := telnet_recv_byte s.a byte
  obtain ⟨htable, hevs⟩ := process_byte_apart s.a byte (by simp [hverb])
  -- no `SEND` is among the events, so nothing goes out
  have hnone : posted (process_byte s.a byte).events = [] := by
    apply List.flatMap_eq_nil_iff.mpr
    intro ev hev
    cases ev with
    | SEND bytes => exact absurd rfl (hevs _ hev)
    | _ => rfl
  have hact : s.act .arrive = ⟨(process_byte s.a byte).telnet, s.b, s.ab, ba⟩ := by
    simp only [act, hba, hfst, hposted, hnone, List.append_nil]
  have hget : ∀ o, get_rfc1143 (process_byte s.a byte).telnet o = get_rfc1143 s.a o := by
    intro o
    rw [get_rfc1143, get_rfc1143, htable.q, htable.q_size]
  have hhalves : ∀ o, halves (process_byte s.a byte).telnet o = halves s.a o := by
    intro o
    rw [halves, halves, hget]
  have hends : End S (process_byte s.a byte).telnet := by
    refine ⟨⟨?_, ?_⟩, fun o => ?_, ?_⟩
    · rw [htable.q, htable.q_size]
      exact h.left.ends.roomy.size
    · rw [htable.q]
      exact h.left.ends.roomy.grown
    · rw [hget, hhalves]
      exact h.left.ends.coded o
    · rw [htable.flags]
      exact h.left.ends.mode
  have hcmds : commands s.a s.ba = commands (process_byte s.a byte).telnet ba := by
    rw [hba, commands_cons, hverb]
    rfl
  have hwhole : (feed byte_step (process_byte s.a byte).telnet ba).1.state = .DATA := by
    have hw := h.left.whole
    rw [hba, feed_cons] at hw
    exact hw
  have hrec : Receives S (process_byte s.a byte).telnet ba :=
    ⟨hends, ((SameParse.refl h.left.sized).step byte).1.left, hwhole,
      by rw [← hcmds]; exact h.left.known⟩
  have hown : ∀ o, s.ownMove o .arrive = none := by
    intro o
    simp only [ownMove, hba]
    apply if_neg
    rintro ⟨-, hs | hs⟩ <;> rw [hs] at hverb <;> cases hverb
  have hother : ∀ o, s.otherMove o .arrive = none := by
    intro o
    simp only [otherMove, hba]
    apply if_neg
    rintro ⟨-, hs | hs⟩ <;> rw [hs] at hverb <;> cases hverb
  unfold Follows
  rw [hact]
  refine ⟨⟨hrec, h.right⟩, fun o => ⟨?_, ?_⟩⟩
  · rw [hown]
    simp only [link, moved, hhalves, hcmds]
  · rw [hother]
    simp only [link, swap, moved, hhalves, hcmds]

/-- A byte that completes a command: the tracker after it, and what it leaves on
the wire. It was the first command under way, and the option is one of those in
use. -/
theorem completed {byte : UInt8} {ba : List UInt8} (hba : s.ba = byte :: ba)
    (hverb : s.a.state.isVerb) :
    byte ∈ S
      ∧ s.act .arrive = ⟨{ (negotiate s.a byte).1 with state := .DATA }, s.b,
          s.ab ++ posted (negotiate s.a byte).2, ba⟩
      ∧ commands s.a s.ba
          = (s.a.state, byte) :: commands { (negotiate s.a byte).1 with state := .DATA } ba
      ∧ (End S (negotiate s.a byte).1 → Receives S
        { (negotiate s.a byte).1 with state := .DATA } ba) := by
  obtain ⟨hfst, hposted⟩ := telnet_recv_byte s.a byte
  obtain ⟨htelnet, hevents⟩ := process_byte_verb s.a byte hverb
  have hcmds : commands s.a s.ba
      = (s.a.state, byte) :: commands { (negotiate s.a byte).1 with state := .DATA } ba := by
    rw [hba, commands_cons, if_pos hverb, htelnet]
    rfl
  have hwhole : (feed byte_step { (negotiate s.a byte).1 with state := .DATA } ba).1.state
      = .DATA := by
    have hw := h.left.whole
    rw [hba, feed_cons] at hw
    rw [← htelnet]
    exact hw
  have hknown := h.left.known
  rw [hcmds] at hknown
  refine ⟨hknown _ (List.mem_cons_self ..), ?_, hcmds, fun hends => ?_⟩
  · simp only [act, hba, hfst, hposted, htelnet, hevents]
  · refine ⟨⟨⟨hends.roomy.size, hends.roomy.grown⟩, hends.coded, hends.mode⟩,
      (h.left.sized.negotiate byte).setState _, hwhole, ?_⟩
    exact fun c hc => hknown c (List.mem_cons_of_mem _ hc)

/-- A DO or DONT arrives: it is about the own half. -/
theorem follows_hear_us (hS : S.card < 64) {byte : UInt8} {ba : List UInt8}
    (hba : s.ba = byte :: ba)
    (on : Bool) (hs : s.a.state = downState on) : Follows S s .arrive := by
  have hverb : s.a.state.isVerb := by rw [hs]; cases on <;> rfl
  obtain ⟨ho, hact, hcmds, hrec⟩ := completed h hba hverb
  have hchange := h.left.ends.hear_us hS ho on hs
  obtain ⟨hfit, hlinks⟩ :=
    fit_us h (hrec hchange.fst) ho hchange.halves (hear_length _ _ on _) hchange.posted
  unfold Follows
  rw [hact]
  refine ⟨hfit, fun o' => ?_⟩
  obtain ⟨hown, hother⟩ := hlinks o'
  rw [hs] at hcmds
  have hdown : (s.link o').down = (if o' = byte then [on] else [])
      ++ downs o' (commands { (negotiate s.a byte).1 with state := .DATA } ba) := by
    rw [link, hcmds]
    exact (downs_cons ..).1
  refine ⟨hown.trans ?_, hother.trans ?_⟩
  · by_cases ho' : o' = byte
    · subst ho'
      have hmove : s.ownMove o' .arrive = some .hearUs := by
        simp only [ownMove, hba, hs]
        cases on <;> rfl
      rw [if_pos rfl] at hdown
      rw [hmove]
      simp only [moved, QMethod.step, hdown, if_true, List.singleton_append]
      rfl
    · have hmove : s.ownMove o' .arrive = none := by
        simp [ownMove, hba, Ne.symm ho']
      rw [if_neg ho', List.nil_append] at hdown
      rw [hmove, if_neg ho', if_neg ho', ← hdown, List.append_nil]
      rfl
  · have hmove : s.otherMove o' .arrive = none := by
      simp only [otherMove, hba, hs]
      cases on <;> simp [downState]
    have hup : (s.swap.link o').up
        = ups o' (commands { (negotiate s.a byte).1 with state := .DATA } ba) := by
      rw [link, swap, hcmds]
      exact (downs_cons ..).2
    rw [hmove, ← hup]
    rfl

/-- A WILL or WONT arrives: it is about the other's. -/
theorem follows_hear_him (hS : S.card < 64) {byte : UInt8} {ba : List UInt8}
    (hba : s.ba = byte :: ba) (on : Bool) (hs : s.a.state = upState on) : Follows S s .arrive := by
  have hverb : s.a.state.isVerb := by rw [hs]; cases on <;> rfl
  obtain ⟨ho, hact, hcmds, hrec⟩ := completed h hba hverb
  have hchange := h.left.ends.hear_him hS ho on hs
  obtain ⟨hfit, hlinks⟩ :=
    fit_him h (hrec hchange.fst) ho hchange.halves (hear_length _ _ on _) hchange.posted
  unfold Follows
  rw [hact]
  refine ⟨hfit, fun o' => ?_⟩
  obtain ⟨hown, hother⟩ := hlinks o'
  rw [hs] at hcmds
  have hup : (s.swap.link o').up = (if o' = byte then [on] else [])
      ++ ups o' (commands { (negotiate s.a byte).1 with state := .DATA } ba) := by
    rw [link, swap, hcmds]
    exact (ups_cons ..).1
  refine ⟨hown.trans ?_, hother.trans ?_⟩
  · have hmove : s.ownMove o' .arrive = none := by
      simp only [ownMove, hba, hs]
      cases on <;> simp [upState]
    have hdown :
        (s.link o').down
        = downs o' (commands { (negotiate s.a byte).1 with state := .DATA } ba) := by
      rw [link, hcmds]
      exact (ups_cons ..).2
    rw [hmove, ← hdown]
    rfl
  · by_cases ho' : o' = byte
    · subst ho'
      have hmove : s.otherMove o' .arrive = some .hearHim := by
        simp only [otherMove, hba, hs]
        cases on <;> rfl
      rw [if_pos rfl] at hup
      rw [hmove]
      simp only [moved, QMethod.step, hup, if_true, List.singleton_append]
      rfl
    · have hmove : s.otherMove o' .arrive = none := by
        simp [otherMove, hba, Ne.symm ho']
      rw [if_neg ho', List.nil_append] at hup
      rw [hmove, if_neg ho', if_neg ho', ← hup, List.append_nil]
      rfl

/-- **Whatever is done at an end is a move of the links**, and keeps the wires
whole. With this the two libraries, with their buffers, arrays and parsers, are
a pair of links for each option. -/
theorem follows (hS : S.card < 64) {d : Deed} (hd : d.Ok S) : Follows S s d := by
  cases d with
  | ask cmd o =>
      by_cases hus : ∃ on, cmd = usVerb on
      · obtain ⟨on, rfl⟩ := hus
        exact follows_ask_us h hS hd on
      · by_cases hhim : ∃ on, cmd = himVerb on
        · obtain ⟨on, rfl⟩ := hhim
          exact follows_ask_him h hS hd on
        · -- not a verb: nothing is done
          have hnone := telnet_negotiate_other h.left.ends o (fun on he => hus ⟨on, he⟩)
            (fun on he => hhim ⟨on, he⟩)
          have hact : s.act (.ask cmd o) = s := by
            simp only [act, hnone, posted_nil, List.append_nil]
          have h1 : cmd ≠ TELNET_WILL := fun he => hus ⟨true, he⟩
          have h2 : cmd ≠ TELNET_WONT := fun he => hus ⟨false, he⟩
          have h3 : cmd ≠ TELNET_DO := fun he => hhim ⟨true, he⟩
          have h4 : cmd ≠ TELNET_DONT := fun he => hhim ⟨false, he⟩
          unfold Follows
          rw [hact]
          refine ⟨h, fun o' => ⟨?_, ?_⟩⟩
          · simp [ownMove, h1, h2, moved]
          · simp [otherMove, h3, h4, moved]
  | call c => exact follows_call h hd
  | arrive =>
      cases hba : s.ba with
      | nil =>
          have hact : s.act .arrive = s := by simp only [act, hba]
          unfold Follows
          rw [hact]
          refine ⟨h, fun o' => ⟨?_, ?_⟩⟩
          · simp only [ownMove, hba, moved]
          · simp only [otherMove, hba, moved]
      | cons byte ba =>
          cases hs : s.a.state with
          | WILL => exact follows_hear_him h hS hba true hs
          | WONT => exact follows_hear_him h hS hba false hs
          | DO => exact follows_hear_us h hS hba true hs
          | DONT => exact follows_hear_us h hS hba false hs
          | _ => exact follows_quiet h hba (by rw [hs]; rfl)

end Moves

end Peers

end AutoMag.Libtelnet
