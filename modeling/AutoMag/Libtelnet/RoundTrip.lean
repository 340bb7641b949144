/-
`Libtelnet/RoundTrip.lean` -- what one application says is what the other is told.

The senders of `Send.lean` against the parser: every call of one application, and every
list of calls, tells the other application exactly what it was meant to, in order, in
whatever blocks the network delivers the bytes. The two halves meet at `Says`, a
description of bytes that mean something to any tracker that is between two commands.
Negotiation is the one kind of call that is not here, since what the other end is told
of it depends on both tables (`Peers.lean`).
-/
import AutoMag.Libtelnet.Send

set_option autoImplicit false

namespace AutoMag.Libtelnet

open AutoMag.Machine

/-! ## 1. Bytes with a meaning -/

/-- The bytes take the tracker from `t` to `u`, and tell the application these
events. -/
structure Reads (t : Telnet) (bytes : List UInt8) (u : Telnet) (evs : List Event) : Prop where
  plain : Plain t bytes
  after : (feed byte_step t bytes).1 = u
  told : told t bytes = evs

theorem reads_nil (t : Telnet) : Reads t [] t [] := ⟨trivial, rfl, rfl⟩

/-- One byte that is not to be discarded, read in one step. -/
theorem reads_byte {t u : Telnet} {b : UInt8} {evs : List Event} (hskip : skips t b = false)
    (hstep : tell_step t b = (u, evs)) : Reads t [b] u evs := by
  refine ⟨⟨hskip, trivial⟩, congrArg Prod.fst hstep, ?_⟩
  rw [told_cons, hstep]
  exact List.append_nil _

/-- A plain stream may be followed by one that is plain from where the first has
left off. -/
theorem Plain.append {t : Telnet} {as bs : List UInt8} (ha : Plain t as)
    (hb : Plain (feed byte_step t as).1 bs) : Plain t (as ++ bs) := by
  induction as generalizing t with
  | nil => exact hb
  | cons a as ih => exact ⟨ha.1, ih ha.2 hb⟩

/-- What is read in two parts is read in one: the events follow each other. -/
theorem Reads.trans {t u v : Telnet} {as bs : List UInt8} {evs evs' : List Event}
    (ha : Reads t as u evs) (hb : Reads u bs v evs') : Reads t (as ++ bs) v (evs ++ evs') := by
  refine ⟨ha.plain.append (by rw [ha.after]; exact hb.plain), ?_, ?_⟩
  · rw [feed_append, ha.after, hb.after]
  · rw [told_append, ha.after, ha.told, hb.told]

/-- And they hold no option command. -/
structure Goes (t : Telnet) (bytes : List UInt8) (u : Telnet) (evs : List Event) : Prop
    extends Reads t bytes u evs where
  quiet : commands t bytes = []

theorem goes_nil (t : Telnet) : Goes t [] t [] := ⟨reads_nil t, rfl⟩

/-- One byte that completes no option command, so the table stays out of it. -/
theorem goes_byte {t u : Telnet} {b : UInt8} {evs : List Event} (hverb : t.state.isVerb = false)
    (hskip : skips t b = false) (hstep : tell_step t b = (u, evs)) : Goes t [b] u evs := by
  refine ⟨reads_byte hskip hstep, ?_⟩
  rw [commands_cons, hverb]
  rfl

/-- The same, with no option command on the way. -/
theorem Goes.trans {t u v : Telnet} {as bs : List UInt8} {evs evs' : List Event}
    (ha : Goes t as u evs) (hb : Goes u bs v evs') : Goes t (as ++ bs) v (evs ++ evs') := by
  refine ⟨ha.toReads.trans hb.toReads, ?_⟩
  rw [commands_append, ha.after, ha.quiet, hb.quiet]
  rfl

/-- Bytes that any tracker between two commands takes for these events, and is
between two commands again with its table as it was. -/
def Says (bytes : List UInt8) (evs : List Event) : Prop :=
  ∀ t : Telnet, t.state = .DATA → Sized t →
    ∃ u, Goes t bytes u evs ∧ u.state = .DATA ∧ Sized u ∧ SameTable t u

theorem SameTable.refl (t : Telnet) : SameTable t t := ⟨rfl, rfl, rfl, rfl⟩

theorem SameTable.trans {t u v : Telnet} (h : SameTable t u) (h' : SameTable u v) :
    SameTable t v :=
  ⟨h'.q.trans h.q, h'.q_size.trans h.q_size, h'.telopts.trans h.telopts, h'.flags.trans h.flags⟩

theorem says_nil : Says [] [] := fun t hs hz => ⟨t, goes_nil t, hs, hz, SameTable.refl t⟩

/-- **Meanings follow each other.** Each part leaves the tracker between two
commands, which is all the next one asks for. So a conversation is shown call by
call. -/
theorem Says.append {as bs : List UInt8} {evs evs' : List Event} (ha : Says as evs)
    (hb : Says bs evs') : Says (as ++ bs) (evs ++ evs') := by
  intro t hs hz
  obtain ⟨u, hgo, hu, hzu, htu⟩ := ha t hs hz
  obtain ⟨v, hgo', hv, hzv, huv⟩ := hb u hu hzu
  exact ⟨v, hgo.trans hgo', hv, hzv, htu.trans huv⟩

/-- Any number of parts, each with its meaning. -/
theorem says_flatMap {α : Type*} {f : α → List UInt8} {g : α → List Event} {as : List α}
    (h : ∀ a ∈ as, Says (f a) (g a)) : Says (as.flatMap f) (as.flatMap g) := by
  induction as with
  | nil => exact says_nil
  | cons a as ih =>
      rw [List.flatMap_cons, List.flatMap_cons]
      exact (h a (List.mem_cons_self ..)).append (ih fun a ha => h a (List.mem_cons_of_mem _ ha))

/-! ## 2. Data and plain commands -/

theorem iac_ne_will : TELNET_IAC ≠ TELNET_WILL := by decide

theorem iac_ne_se : TELNET_IAC ≠ TELNET_SE := by decide

/-- A command begins: the IAC is kept back, and nothing is told yet. -/
theorem goes_command {t : Telnet} (hs : t.state = .DATA) :
    Goes t [TELNET_IAC] { t with state := .IAC } [] :=
  goes_byte (by rw [hs]; rfl) (by simp [skips, hs]) (by simp [tell_step, process_byte, hs])

theorem setState_self {t : Telnet} {state : State} (hs : t.state = state) :
    { t with state := state } = t := by rw [← hs]

/-- One byte of data, escaped if it is an IAC. Both ways the tracker is where it
was. -/
theorem says_byte (b : UInt8) : Says (doubled [b]) [.DATA [b]] := by
  intro t hs hz
  refine ⟨t, ?_, hs, hz, SameTable.refl t⟩
  by_cases hb : b = TELNET_IAC
  -- an escaped IAC: out of the DATA state and back
  · subst hb
    have hiac : iac_byte { t with state := .IAC } TELNET_IAC
        = { telnet := { t with state := .DATA },
            events := [.DATA [TELNET_IAC]],
            start := some 1 } := rfl
    have hpair : Goes { t with state := .IAC } [TELNET_IAC] t [.DATA [TELNET_IAC]] :=
      goes_byte rfl (by simp [skips]) (by simp [tell_step, process_byte, hiac, setState_self hs])
    exact (goes_command hs).trans hpair
  · rw [doubled_of_not_mem (by simpa using Ne.symm hb)]
    exact goes_byte (by rw [hs]; rfl) (by simp [skips, hs])
      (by simp [tell_step, process_byte, hs, hb])

theorem doubled_flatMap (bytes : List UInt8) :
    doubled bytes = bytes.flatMap fun b => doubled [b] := by
  induction bytes with
  | nil => rfl
  | cons b bytes ih =>
      rw [List.flatMap_cons, ← ih, ← doubled_append]
      rfl

/-- **Data is data**: escaped, it is told byte by byte. How the library cuts it
into events depends on the blocks, which is why the meaning is by the byte. -/
theorem says_data (bytes : List UInt8) :
    Says (doubled bytes) (bytes.flatMap fun b => [.DATA [b]]) := by
  rw [doubled_flatMap]
  exact says_flatMap fun b _ => says_byte b

/-- The commands that stand alone. -/
def IsCommand (cmd : UInt8) : Prop :=
  cmd ≠ TELNET_SB ∧ cmd ≠ TELNET_WILL ∧ cmd ≠ TELNET_WONT ∧ cmd ≠ TELNET_DO ∧ cmd ≠ TELNET_DONT
    ∧ cmd ≠ TELNET_IAC

instance (cmd : UInt8) : Decidable (IsCommand cmd) := inferInstanceAs (Decidable (_ ∧ _))

/-- A command of one byte after the IAC. -/
theorem says_iac {cmd : UInt8} (h : IsCommand cmd) : Says [TELNET_IAC, cmd] [.IAC cmd] := by
  intro t hs hz
  obtain ⟨h1, h2, h3, h4, h5, h6⟩ := h
  refine ⟨t, ?_, hs, hz, SameTable.refl t⟩
  have hcmd : Goes { t with state := .IAC } [cmd] t [.IAC cmd] := by
    apply goes_byte rfl (by simp [skips])
    simp only [tell_step, process_byte, iac_byte]
    simp [h1, h2, h3, h4, h5, h6, setState_self hs]
  exact (goes_command hs).trans hcmd

/-! ## 3. Subnegotiations -/

/-- What the application is told of a subnegotiation: the bytes, and what they
are decoded to. -/
def reported (telopt : UInt8) (buffer : List UInt8) : List Event :=
  (subnegotiate { telopts := [], sb_telopt := telopt, buffer := buffer }).1

/-- Inside a subnegotiation, with its bytes so far. -/
structure Inside (t : Telnet) (telopt : UInt8) (buffer : List UInt8) (u : Telnet) : Prop where
  state : u.state = .SB_DATA
  telopt : u.sb_telopt = telopt
  buffer : u.buffer = buffer
  sized : Sized u
  table : SameTable t u

/-- The beginning of a subnegotiation: the option is noted, and the buffer is
empty whatever was in it before. -/
theorem goes_begin_sb {t : Telnet} (hs : t.state = .DATA) (hz : Sized t) (telopt : UInt8) :
    ∃ u, Goes t [TELNET_IAC, TELNET_SB, telopt] u [] ∧ Inside t telopt [] u := by
  refine ⟨{ t with sb_telopt := telopt, buffer := [], state := .SB_DATA }, ?_,
    rfl, rfl, rfl, ⟨Nat.zero_le _, hz.mem⟩, rfl, rfl, rfl, rfl⟩
  have hsb : Goes { t with state := .IAC } [TELNET_SB] { t with state := .SB } [] :=
    goes_byte rfl (by simp [skips]) (by simp [tell_step, process_byte, iac_byte])
  have hopt : Goes { t with state := .SB } [telopt]
      { t with sb_telopt := telopt, buffer := [], state := .SB_DATA } [] :=
    goes_byte rfl (by simp [skips]) (by simp [tell_step, process_byte])
  exact (goes_command hs).trans (hsb.trans hopt)

/-- `_buffer_byte` with room left: the byte is kept and nothing is said, whether
or not the buffer had to grow for it. -/
theorem buffer_byte_fits {t : Telnet} (hz : Sized t) (b : UInt8) (hlen : t.buffer.length < 16384) :
    (buffer_byte t b).2 = ([], true) ∧ (buffer_byte t b).1.buffer = t.buffer ++ [b] := by
  obtain ⟨-, hbuf, hok, -⟩ := buffer_byte_spec hz b
  have hne : t.buffer.length ≠ 16384 := by omega
  rw [if_neg hne] at hbuf
  rw [decide_eq_true hne] at hok
  refine ⟨?_, hbuf⟩
  unfold buffer_byte at hok ⊢
  simp only at hok ⊢
  repeat' split
  all_goals simp_all

/-- A byte of it that fits and does not begin MCCP version 1. An IAC takes two
bytes on the wire and one in the buffer. -/
theorem goes_sb_byte {t u : Telnet} {telopt : UInt8} {buffer : List UInt8}
    (h : Inside t telopt buffer u) (b : UInt8) (hlen : buffer.length < 16384)
    (hb : telopt = TELNET_TELOPT_COMPRESS → b ≠ TELNET_WILL) :
    ∃ v, Goes u (doubled [b]) v [] ∧ Inside t telopt (buffer ++ [b]) v := by
  have hinside : ∀ w : Telnet, Sized w → w.buffer = buffer → w.sb_telopt = telopt →
      SameTable t w → Inside t telopt (buffer ++ [b])
        { (buffer_byte w b).1 with state := .SB_DATA } := by
    intro w hz hbuf hopt htab
    have hfits := buffer_byte_fits hz b (by rw [hbuf]; exact hlen)
    have hspec := buffer_byte_spec hz b
    have htab' := htab.trans (buffer_byte_apart w b).1
    exact ⟨rfl, hspec.1.trans hopt, hfits.2.trans (by rw [hbuf]), hspec.2.2.2.setState _,
      htab'.q, htab'.q_size, htab'.telopts, htab'.flags⟩
  by_cases hiac : b = TELNET_IAC
  -- an escaped IAC: the second one of the pair is buffered
  · subst hiac
    have hz : Sized { u with state := .SB_DATA_IAC } := h.sized.setState _
    have hfits := (buffer_byte_fits hz TELNET_IAC (by exact h.buffer ▸ hlen)).1
    refine ⟨_, ?_, hinside { u with state := .SB_DATA_IAC } hz h.buffer h.telopt
      ⟨h.table.q, h.table.q_size, h.table.telopts, h.table.flags⟩⟩
    have hfirst : Goes u [TELNET_IAC] { u with state := .SB_DATA_IAC } [] :=
      goes_byte (by rw [h.state]; rfl) (by simp [skips, iac_ne_will])
        (by simp [tell_step, process_byte, sb_data_byte, h.state])
    apply hfirst.trans
    apply goes_byte rfl (by simp [skips])
    simp [tell_step, process_byte, sb_data_iac_byte, hfits, iac_ne_se]
  · rw [doubled_of_not_mem (by simpa using Ne.symm hiac)]
    have hfits := (buffer_byte_fits h.sized b (by exact h.buffer ▸ hlen)).1
    have hskip : ¬ (u.sb_telopt = TELNET_TELOPT_COMPRESS ∧ b = TELNET_WILL) := by
      rintro ⟨hopt, hw⟩
      exact hb (h.telopt.symm.trans hopt) hw
    refine ⟨_, ?_, hinside u h.sized h.buffer h.telopt h.table⟩
    apply goes_byte (by rw [h.state]; rfl) (by simpa [skips, h.state] using hskip)
    have hst : (buffer_byte u b).1.state = .SB_DATA := (buffer_byte_state u b).trans h.state
    simp [tell_step, process_byte, sb_data_byte, h.state, hiac, hskip, hfits, setState_self hst]

/-- All of its bytes, by induction, with what the buffer holds already. -/
theorem goes_sb_bytes {t : Telnet} {telopt : UInt8} (bytes : List UInt8) :
    ∀ {buffer : List UInt8} {u : Telnet}, Inside t telopt buffer u →
    (buffer ++ bytes).length ≤ 16384 → (telopt = TELNET_TELOPT_COMPRESS → TELNET_WILL ∉ bytes) →
    ∃ v, Goes u (doubled bytes) v [] ∧ Inside t telopt (buffer ++ bytes) v := by
  induction bytes with
  | nil =>
      intro buffer u h _ _
      exact ⟨u, goes_nil u, by rw [List.append_nil]; exact h⟩
  | cons b bytes ih =>
      intro buffer u h hlen hb
      rw [List.length_append, List.length_cons] at hlen
      obtain ⟨v, hgo, hv⟩ := goes_sb_byte h b (by omega)
        (fun hopt hw => hb hopt (hw ▸ List.mem_cons_self ..))
      obtain ⟨w, hgo', hw⟩ :=
        ih hv (by simp only [List.length_append, List.length_singleton]; omega)
        (fun hopt hm => hb hopt (List.mem_cons_of_mem _ hm))
      refine ⟨w, ?_, by rw [List.append_assoc] at hw; exact hw⟩
      have hsplit : doubled (b :: bytes) = doubled [b] ++ doubled bytes := doubled_append [b] bytes
      rw [hsplit]
      exact hgo.trans hgo'

/-- **A subnegotiation arrives whole**, up to the size of the buffer. The bound
is on the bytes before they are escaped, as the buffer counts them. -/
theorem says_subnegotiation {telopt : UInt8} {buffer : List UInt8} (hlen : buffer.length ≤ 16384)
    (hmccp : telopt = TELNET_TELOPT_COMPRESS → TELNET_WILL ∉ buffer) :
    Says (posted (telnet_subnegotiation telopt buffer)) (reported telopt buffer) := by
  intro t hs hz
  obtain ⟨u, hbegin, hu⟩ := goes_begin_sb hs hz telopt
  obtain ⟨v, hbytes, hv⟩ := goes_sb_bytes buffer hu (by simpa using hlen) hmccp
  rw [List.nil_append] at hv
  refine ⟨{ v with state := .DATA }, ?_, rfl, hv.sized.setState _,
    hv.table.q, hv.table.q_size, hv.table.telopts, hv.table.flags⟩
  have hbytes_eq : posted (telnet_subnegotiation telopt buffer)
      = [TELNET_IAC, TELNET_SB, telopt] ++ (doubled buffer ++ ([TELNET_IAC] ++ [TELNET_SE])) := by
    simp [telnet_subnegotiation]
  rw [hbytes_eq]
  have hiac : Goes v [TELNET_IAC] { v with state := .SB_DATA_IAC } [] :=
    goes_byte (by rw [hv.state]; rfl) (by simp [skips, iac_ne_will])
      (by simp [tell_step, process_byte, sb_data_byte, hv.state])
  have hsub : (subnegotiate { v with state := .SB_DATA_IAC }).1 = reported telopt buffer := by
    simp only [reported, subnegotiate, hv.telopt, hv.buffer]
  have hse : Goes { v with state := .SB_DATA_IAC } [TELNET_SE] { v with state := .DATA }
      (reported telopt buffer) :=
    goes_byte rfl (by simp [skips]) (by simp [tell_step, process_byte, sb_data_iac_byte, hsub])
  exact hbegin.trans (hbytes.trans (hiac.trans hse))

/-! ## 4. ZMP, TERMINAL-TYPE and NEW-ENVIRON

What the decoders make of the frames the senders build. -/

/-- The bytes of a ZMP frame. -/
def zmp_frame (args : List CString) : List UInt8 := args.flatMap fun arg => arg.bytes ++ [0]

/-- An argument ends at its NUL, and a C string has no other. -/
theorem zmp_args_append {arg : List UInt8} (h : 0 ∉ arg) (rest : List UInt8) :
    zmp_args (arg ++ 0 :: rest) = arg :: zmp_args rest := by
  induction arg with
  | nil => simp [zmp_args]
  | cons b arg ih =>
      have hb : b ≠ 0 := fun hb => h (hb ▸ List.mem_cons_self ..)
      rw [List.cons_append, zmp_args, if_neg hb, ih fun hm => h (List.mem_cons_of_mem _ hm)]

/-- So the frame of some arguments is parsed to these arguments. -/
theorem zmp_args_frame (args : List CString) :
    zmp_args (zmp_frame args) = args.map CString.bytes := by
  induction args with
  | nil => rfl
  | cons arg args ih =>
      rw [zmp_frame, List.flatMap_cons, List.append_assoc, List.singleton_append,
        zmp_args_append arg.no_nul, List.map_cons]
      exact congrArg _ ih

theorem reported_zmp {args : List CString} (h : args ≠ []) :
    reported TELNET_TELOPT_ZMP (zmp_frame args)
      = [.SUBNEGOTIATION TELNET_TELOPT_ZMP (zmp_frame args), .ZMP (args.map CString.bytes)] := by
  -- the frame ends with the NUL of its last argument
  have hlast : (zmp_frame args).getLast? = some 0 := by
    rw [← List.dropLast_concat_getLast h]
    simp [zmp_frame, List.flatMap_append]
  simp only [reported, subnegotiate, if_true, zmp_telnet, hlast, zmp_args_frame]

theorem reported_ttype_is (name : List UInt8) :
    reported TELNET_TELOPT_TTYPE (TELNET_TTYPE_IS :: name)
      = [.SUBNEGOTIATION TELNET_TELOPT_TTYPE (TELNET_TTYPE_IS :: name),
        .TTYPE TELNET_TTYPE_IS name] := by
  rfl

/-- A variable as an application sends it; a value that is left out is not
sent. -/
structure Variable where
  user : Bool
  name : CString
  value : Option CString

def Variable.type (v : Variable) : UInt8 :=
  if v.user then TELNET_ENVIRON_USERVAR else TELNET_ENVIRON_VAR

/-- The bytes of a variable in the subnegotiation. -/
def Variable.frame (v : Variable) : List UInt8 :=
  v.type :: (v.name.bytes ++ match v.value with
    | none => []
    | some s => TELNET_ENVIRON_VALUE :: s.bytes)

/-- The library does not escape the codes of the option, so the texts have to be
free of those that would end them. -/
structure Variable.Clean (v : Variable) : Prop where
  name : TELNET_ENVIRON_VALUE ∉ v.name.bytes ∧ TELNET_ENVIRON_ESC ∉ v.name.bytes
    ∧ TELNET_ENVIRON_USERVAR ∉ v.name.bytes
  value : ∀ s ∈ v.value, TELNET_ENVIRON_ESC ∉ s.bytes ∧ TELNET_ENVIRON_USERVAR ∉ s.bytes

/-- The entry of the ENVIRON event for it. -/
def Variable.entry (v : Variable) : Environ :=
  ⟨v.type, v.name.bytes, match v.value with
    | none => []
    | some s => s.bytes⟩

/-- A text without escapes ends where the next code stands, and not before: none
of its own bytes is one. -/
theorem environ_text_clean {marker : UInt8 → Bool} {text : List UInt8} (rest : List UInt8)
    (htext : ∀ b ∈ text, marker b = false ∧ b ≠ TELNET_ENVIRON_ESC)
    (hrest : ∀ b ∈ rest.head?, marker b = true) :
    environ_text marker (text ++ rest) = (text, rest) := by
  induction text with
  | nil =>
      match rest, hrest with
      | [], _ => rfl
      | [b], hrest => simp [environ_text, hrest b rfl]
      | b :: c :: rest, hrest => simp [environ_text, hrest b rfl]
  | cons b text ih =>
      obtain ⟨hb, hesc⟩ := htext b (List.mem_cons_self ..)
      have ih := ih fun c hc => htext c (List.mem_cons_of_mem _ hc)
      rw [List.cons_append]
      -- the loop looks one byte ahead, so the end of the buffer is a case of its own
      cases htail : text ++ rest with
      | nil =>
          obtain ⟨rfl, rfl⟩ := List.append_eq_nil_iff.mp htail
          simp [environ_text, hb]
      | cons c tail =>
          rw [htail] at ih
          simp [environ_text, hb, hesc, ih]

/-- The first pass of `_environ_telnet` counts the codes, and there is none in
such a text. -/
theorem environ_count_clean {text : List UInt8} (rest : List UInt8)
    (htext : ∀ b ∈ text,
      b ≠ TELNET_ENVIRON_VAR ∧ b ≠ TELNET_ENVIRON_USERVAR ∧ b ≠ TELNET_ENVIRON_ESC) :
    environ_count (text ++ rest) = environ_count rest := by
  induction text with
  | nil => rfl
  | cons b text ih =>
      obtain ⟨h1, h2, h3⟩ := htext b (List.mem_cons_self ..)
      have ih := ih fun c hc => htext c (List.mem_cons_of_mem _ hc)
      rw [List.cons_append, ← ih]
      cases text ++ rest with
      | nil => simp [environ_count, h1, h2]
      | cons c tail => simp [environ_count, h1, h2, h3]

theorem environ_count_cons {kind : UInt8} (rest : List UInt8)
    (h : kind = TELNET_ENVIRON_VAR ∨ kind = TELNET_ENVIRON_USERVAR) :
    environ_count (kind :: rest) = environ_count rest + 1 := by
  cases rest with
  | nil => simp [environ_count, h]
  | cons c rest => simp [environ_count, h]

theorem Variable.type_cases (v : Variable) :
    v.type = TELNET_ENVIRON_VAR ∨ v.type = TELNET_ENVIRON_USERVAR := by
  unfold Variable.type
  split
  · exact Or.inr rfl
  · exact Or.inl rfl

/-- No code of the option is among the bytes after the type, but the one before
the value. The value's own code is not counted, so a variable counts for one. -/
theorem Variable.Clean.rest {v : Variable} (h : v.Clean) :
    ∃ text, v.frame = v.type :: text
      ∧ ∀ b ∈ text, b ≠ TELNET_ENVIRON_VAR ∧ b ≠ TELNET_ENVIRON_USERVAR
        ∧ b ≠ TELNET_ENVIRON_ESC := by
  refine ⟨_, rfl, fun b hb => ?_⟩
  rcases List.mem_append.mp hb with hb | hb
  · exact ⟨fun he => v.name.no_nul (by rw [he] at hb; exact hb),
      fun he => h.name.2.2 (he ▸ hb), fun he => h.name.2.1 (he ▸ hb)⟩
  · cases hv : v.value with
    | none => rw [hv] at hb; cases hb
    | some s =>
        rw [hv] at hb
        obtain ⟨hesc, huser⟩ := h.value s hv
        rcases List.mem_cons.mp hb with rfl | hb
        · decide
        · exact ⟨fun he => s.no_nul (by rw [he] at hb; exact hb), fun he => huser (he ▸ hb),
            fun he => hesc (he ▸ hb)⟩

/-- The number of entries the source allocates is the number of variables. -/
theorem environ_count_frames {vars : List Variable} (h : ∀ v ∈ vars, v.Clean) :
    environ_count (vars.flatMap Variable.frame) = vars.length := by
  induction vars with
  | nil => rfl
  | cons v vars ih =>
      obtain ⟨text, hframe, htext⟩ := (h v (List.mem_cons_self ..)).rest
      rw [List.flatMap_cons, hframe, List.cons_append, environ_count_cons _ v.type_cases,
        environ_count_clean _ htext, ih fun v hv => h v (List.mem_cons_of_mem _ hv),
          List.length_cons]

/-- Frames are empty or begin with a type. -/
theorem head_frames (vars : List Variable) : ∀ b ∈ (vars.flatMap Variable.frame).head?,
    b = TELNET_ENVIRON_VAR ∨ b = TELNET_ENVIRON_USERVAR := by
  cases vars with
  | nil => simp
  | cons v vars =>
      intro b hb
      have hb : v.type = b := by simpa [Variable.frame] using hb
      exact hb ▸ v.type_cases

/-- One entry for each variable, with its value where it has one. By induction
on the variables; `head_frames` says that a text ends where the next frame
begins. -/
theorem environ_values_frames {vars : List Variable} (h : ∀ v ∈ vars, v.Clean) :
    environ_values vars.length (vars.flatMap Variable.frame) = vars.map Variable.entry := by
  induction vars with
  | nil => rfl
  | cons v vars ih =>
      have hclean := h v (List.mem_cons_self ..)
      have ih := ih fun v hv => h v (List.mem_cons_of_mem _ hv)
      have hhead := head_frames vars
      have hname : ∀ b ∈ v.name.bytes, (decide (b = TELNET_ENVIRON_VAR ∨ b = TELNET_ENVIRON_VALUE
          ∨ b = TELNET_ENVIRON_USERVAR) = false) ∧ b ≠ TELNET_ENVIRON_ESC := by
        intro b hb
        have h0 : b ≠ TELNET_ENVIRON_VAR := fun he => v.name.no_nul (by rw [he] at hb; exact hb)
        have h1 : b ≠ TELNET_ENVIRON_VALUE := fun he => hclean.name.1 (he ▸ hb)
        have h2 : b ≠ TELNET_ENVIRON_ESC := fun he => hclean.name.2.1 (he ▸ hb)
        have h3 : b ≠ TELNET_ENVIRON_USERVAR := fun he => hclean.name.2.2 (he ▸ hb)
        exact ⟨by simp [h0, h1, h3], h2⟩
      cases hv : v.value with
      | none =>
          have htext := environ_text_clean (vars.flatMap Variable.frame) hname fun b hb => by
            rcases hhead b hb with rfl | rfl <;> rfl
          have hframe : v.frame = v.type :: v.name.bytes := by simp [Variable.frame, hv]
          have hentry : v.entry = ⟨v.type, v.name.bytes, []⟩ := by simp [Variable.entry, hv]
          rw [List.flatMap_cons, hframe, List.cons_append, List.length_cons, environ_values, htext,
            List.map_cons, hentry, ← ih]
          -- the next variable ends the name, or the end of the buffer does
          cases hrest : vars.flatMap Variable.frame with
          | nil => rfl
          | cons b rest =>
              have hb : b ≠ TELNET_ENVIRON_VALUE := by
                rw [hrest] at hhead
                rcases hhead b rfl with rfl | rfl <;> decide
              simp only [if_neg hb]
      | some s =>
          obtain ⟨hesc, huser⟩ := hclean.value s hv
          have hvalue : ∀ b ∈ s.bytes, (decide (b = TELNET_ENVIRON_VAR
              ∨ b = TELNET_ENVIRON_USERVAR) = false) ∧ b ≠ TELNET_ENVIRON_ESC := by
            intro b hb
            have h0 : b ≠ TELNET_ENVIRON_VAR := fun he => s.no_nul (by rw [he] at hb; exact hb)
            have h3 : b ≠ TELNET_ENVIRON_USERVAR := fun he => huser (he ▸ hb)
            exact ⟨by simp [h0, h3], fun he => hesc (he ▸ hb)⟩
          have hname_text := environ_text_clean
            (TELNET_ENVIRON_VALUE :: (s.bytes ++ vars.flatMap Variable.frame)) hname
            fun b hb => by rw [← Option.mem_some.mp hb]; rfl
          have hvalue_text := environ_text_clean (vars.flatMap Variable.frame) hvalue
            fun b hb => by rcases hhead b hb with rfl | rfl <;> rfl
          have hframe : v.frame = v.type :: (v.name.bytes ++ TELNET_ENVIRON_VALUE :: s.bytes) := by
            simp [Variable.frame, hv]
          have hentry : v.entry = ⟨v.type, v.name.bytes, s.bytes⟩ := by simp [Variable.entry, hv]
          rw [List.flatMap_cons, hframe, List.cons_append, List.append_assoc, List.cons_append,
            List.length_cons, environ_values, hname_text, List.map_cons, hentry, ← ih]
          simp only [if_true, hvalue_text]

/-- **A NEW-ENVIRON block is decoded to its variables.** The command has to be
one the source knows, or it warns and reports nothing further. -/
theorem reported_newenviron {cmd : UInt8} {vars : List Variable}
    (hcmd : cmd = TELNET_ENVIRON_IS ∨ cmd = TELNET_ENVIRON_SEND ∨ cmd = TELNET_ENVIRON_INFO)
    (h : ∀ v ∈ vars, v.Clean) :
    reported TELNET_TELOPT_NEW_ENVIRON (cmd :: vars.flatMap Variable.frame)
      = [.SUBNEGOTIATION TELNET_TELOPT_NEW_ENVIRON (cmd :: vars.flatMap Variable.frame),
        .ENVIRON cmd (vars.map Variable.entry)] := by
  have hvalid :
      ¬ (cmd ≠ TELNET_ENVIRON_SEND ∧ cmd ≠ TELNET_ENVIRON_IS ∧ cmd ≠ TELNET_ENVIRON_INFO) := by
    rintro ⟨h1, h2, h3⟩
    rcases hcmd with hc | hc | hc
    · exact h2 hc
    · exact h1 hc
    · exact h3 hc
  have hdecode : environ_telnet TELNET_TELOPT_NEW_ENVIRON (cmd :: vars.flatMap Variable.frame)
      = ([.ENVIRON cmd (vars.map Variable.entry)], true) := by
    simp only [environ_telnet, if_neg hvalid]
    cases vars with
    | nil => rfl
    | cons v vars =>
        -- no byte of a clean block is an ESC, so neither is the last one
        have hesc : ((v :: vars).flatMap Variable.frame).getLast? ≠ some TELNET_ENVIRON_ESC := by
          intro hlast
          obtain ⟨w, hw, hmem⟩ := List.mem_flatMap.mp (List.mem_of_getLast? hlast)
          obtain ⟨text, hframe, htext⟩ := (h w hw).rest
          rw [hframe] at hmem
          rcases List.mem_cons.mp hmem with he | hm
          · rcases w.type_cases with hk | hk <;> rw [hk] at he <;> exact absurd he (by decide)
          · exact (htext _ hm).2.2 rfl
        obtain ⟨text, hframe, -⟩ := (h v (List.mem_cons_self ..)).rest
        have hkind : ¬ (v.type ≠ TELNET_ENVIRON_VAR ∧ v.type ≠ TELNET_ENVIRON_USERVAR) := by
          rintro ⟨h1, h2⟩
          exact v.type_cases.elim h1 h2
        have hcount := environ_count_frames h
        have hvalues := environ_values_frames h
        have hhead : (v :: vars).flatMap Variable.frame
            = v.type :: (text ++ vars.flatMap Variable.frame) := by
          rw [List.flatMap_cons, hframe, List.cons_append]
        rw [hhead] at hesc hcount hvalues ⊢
        simp only [if_neg hkind, if_neg hesc, hcount, hvalues]
  simp only [reported, subnegotiate, hdecode]
  rfl

/-! ## 5. Conversations -/

/-- What an application calls the library for. A NEW-ENVIRON block is the calls
it is made of, one or two for each variable. -/
inductive Call where
  | send (buffer : List UInt8)
  | iac (cmd : UInt8)
  | subnegotiation (telopt : UInt8) (buffer : List UInt8)
  | printf (output : List UInt8)
  | raw_printf (output : List UInt8)
  | zmp (cmd : CString) (args : List CString)
  | zmpv (args : List CString)
  | ttype_send
  | ttype_is (ttype : CString)
  | newenviron (cmd : UInt8) (vars : List Variable)

/-- The calls for one variable. -/
def Variable.sends (v : Variable) : List Event :=
  telnet_newenviron_value v.type (some v.name) ++ (match v.value with
    | none => []
    | some s => telnet_newenviron_value TELNET_ENVIRON_VALUE (some s))

/-- The events the sending library raises. -/
def Call.events : Call → List Event
  | .send buffer => telnet_send buffer
  | .iac cmd => telnet_iac cmd
  | .subnegotiation telopt buffer => telnet_subnegotiation telopt buffer
  | .printf output => telnet_printf output
  | .raw_printf output => telnet_raw_printf output
  | .zmp cmd args => telnet_send_zmp cmd args
  | .zmpv args => telnet_send_zmpv args
  | .ttype_send => telnet_ttype_send
  | .ttype_is ttype => telnet_ttype_is ttype.bytes
  | .newenviron cmd vars => telnet_begin_newenviron cmd ++ vars.flatMap Variable.sends
    ++ telnet_finish_sb

/-- The content of a subnegotiation fits the receiver's buffer. -/
def Fits (buffer : List UInt8) : Prop := buffer.length ≤ 16384

/-- What the call has to keep to. `telnet_ttype_is` does not escape its
argument. -/
def Call.Ok : Call → Prop
  | .send _ | .printf _ | .raw_printf _ | .ttype_send => True
  | .iac cmd => IsCommand cmd
  | .subnegotiation telopt buffer =>
      Fits buffer ∧ (telopt = TELNET_TELOPT_COMPRESS → TELNET_WILL ∉ buffer)
  | .zmp cmd args => Fits (zmp_frame (cmd :: args))
  | .zmpv args => args ≠ [] ∧ Fits (zmp_frame args)
  | .ttype_is ttype => TELNET_IAC ∉ ttype.bytes ∧ Fits (TELNET_TTYPE_IS :: ttype.bytes)
  | .newenviron cmd vars =>
      (cmd = TELNET_ENVIRON_IS ∨ cmd = TELNET_ENVIRON_SEND ∨ cmd = TELNET_ENVIRON_INFO)
        ∧ (∀ v ∈ vars, v.Clean) ∧ Fits (cmd :: vars.flatMap Variable.frame)

/-- What the other application is told. -/
def Call.meaning : Call → List Event
  | .send buffer | .raw_printf buffer => buffer.flatMap fun b => [.DATA [b]]
  | .printf output => (network output).flatMap fun b => [.DATA [b]]
  | .iac cmd => [.IAC cmd]
  | .subnegotiation telopt buffer => reported telopt buffer
  | .zmp cmd args =>
      [.SUBNEGOTIATION TELNET_TELOPT_ZMP (zmp_frame (cmd :: args)),
        .ZMP ((cmd :: args).map CString.bytes)]
  | .zmpv args =>
      [.SUBNEGOTIATION TELNET_TELOPT_ZMP (zmp_frame args), .ZMP (args.map CString.bytes)]
  | .ttype_send =>
      [.SUBNEGOTIATION TELNET_TELOPT_TTYPE [TELNET_TTYPE_SEND], .TTYPE TELNET_TTYPE_SEND []]
  | .ttype_is ttype =>
      [.SUBNEGOTIATION TELNET_TELOPT_TTYPE (TELNET_TTYPE_IS :: ttype.bytes),
        .TTYPE TELNET_TTYPE_IS ttype.bytes]
  | .newenviron cmd vars =>
      [.SUBNEGOTIATION TELNET_TELOPT_NEW_ENVIRON (cmd :: vars.flatMap Variable.frame),
        .ENVIRON cmd (vars.map Variable.entry)]

/-- The arguments of a ZMP command are sent one by one, each with its NUL. -/
theorem posted_zmp_args (args : List CString) :
    posted (args.flatMap telnet_zmp_arg) = doubled (zmp_frame args) := by
  rw [posted_flatMap, doubled, zmp_frame, List.flatMap_assoc]
  exact List.flatMap_congr fun arg _ => posted_telnet_send _

/-- So are the type, the name and the value of a variable. -/
theorem posted_variable (v : Variable) : posted v.sends = doubled v.frame := by
  have hsplit : doubled v.frame = doubled [v.type] ++ (doubled v.name.bytes
      ++ doubled (match v.value with
          | none => []
          | some s => TELNET_ENVIRON_VALUE :: s.bytes)) := by
    rw [← doubled_append, ← doubled_append]
    rfl
  rw [hsplit, Variable.sends, posted_append, ← List.append_assoc]
  cases v.value with
  | none => simp [telnet_newenviron_value, doubled]
  | some s =>
      simp only [telnet_newenviron_value, posted_append, posted_telnet_send]
      rw [← doubled_append [TELNET_ENVIRON_VALUE] s.bytes]
      rfl

/-- Every call that is not data or a plain command is a subnegotiation in one
piece. The source sends it in several, and the bytes are the same. -/
theorem posted_zmpv (args : List CString) :
    posted (telnet_send_zmpv args)
      = posted (telnet_subnegotiation TELNET_TELOPT_ZMP (zmp_frame args)) := by
  simp only [telnet_send_zmpv, telnet_begin_sb, telnet_finish_sb, telnet_iac, telnet_subnegotiation,
    posted_append, posted_send, posted_nil, posted_zmp_args, posted_telnet_send, List.append_nil]
  rw [List.append_assoc]

theorem posted_zmp (cmd : CString) (args : List CString) :
    telnet_send_zmp cmd args = telnet_send_zmpv (cmd :: args) := by
  simp only [telnet_send_zmp, telnet_send_zmpv, telnet_begin_zmp, List.flatMap_cons,
    List.append_assoc]

/-- `telnet_ttype_is` does not escape the name, so it may hold no IAC. -/
theorem posted_ttype_is {ttype : List UInt8} (h : TELNET_IAC ∉ ttype) :
    posted (telnet_ttype_is ttype)
      = posted (telnet_subnegotiation TELNET_TELOPT_TTYPE (TELNET_TTYPE_IS :: ttype)) := by
  have hd : doubled (TELNET_TTYPE_IS :: ttype) = TELNET_TTYPE_IS :: ttype := by
    apply doubled_of_not_mem
    intro hm
    rcases List.mem_cons.mp hm with he | hm
    · exact absurd he (by decide)
    · exact h hm
  simp only [telnet_ttype_is, telnet_subnegotiation, posted_append, posted_send, posted_nil,
    posted_telnet_send, hd]
  rfl

theorem posted_newenviron {cmd : UInt8} (vars : List Variable) :
    posted (telnet_begin_newenviron cmd ++ vars.flatMap Variable.sends ++ telnet_finish_sb)
      = posted (telnet_subnegotiation TELNET_TELOPT_NEW_ENVIRON
        (cmd :: vars.flatMap Variable.frame)) := by
  have hvars : posted (vars.flatMap Variable.sends) = doubled (vars.flatMap Variable.frame) := by
    rw [posted_flatMap, doubled, List.flatMap_assoc]
    exact List.flatMap_congr fun v _ => posted_variable v
  have hcmd : doubled (cmd :: vars.flatMap Variable.frame)
      = doubled [cmd] ++ doubled (vars.flatMap Variable.frame) := doubled_append [cmd] _
  simp only [telnet_begin_newenviron, telnet_begin_sb, telnet_finish_sb, telnet_iac,
    telnet_subnegotiation, posted_append, posted_send, posted_nil, hvars, posted_telnet_send, hcmd,
    List.append_nil, List.append_assoc]

/-- **A call says what it means**, one case for each of the senders of the
library. -/
theorem Call.said {c : Call} (h : c.Ok) : Says (posted c.events) c.meaning := by
  cases c with
  | send buffer =>
      rw [Call.events, posted_telnet_send]
      exact says_data buffer
  | iac cmd => exact says_iac h
  | subnegotiation telopt buffer => exact says_subnegotiation h.1 h.2
  | printf output =>
      rw [Call.events, posted_telnet_printf]
      exact says_data (network output)
  | raw_printf output =>
      rw [Call.events, telnet_raw_printf, posted_telnet_send]
      exact says_data output
  | zmp cmd args =>
      rw [Call.events, posted_zmp, posted_zmpv, Call.meaning,
        ← reported_zmp (List.cons_ne_nil cmd args)]
      exact says_subnegotiation h (fun he => absurd he (by decide))
  | zmpv args =>
      rw [Call.events, posted_zmpv, Call.meaning, ← reported_zmp h.1]
      exact says_subnegotiation h.2 (fun he => absurd he (by decide))
  | ttype_send =>
      have hfits : [TELNET_TTYPE_SEND].length ≤ 16384 := by decide
      exact says_subnegotiation hfits (fun he => absurd he (by decide))
  | ttype_is ttype =>
      rw [Call.events, posted_ttype_is h.1, Call.meaning, ← reported_ttype_is]
      exact says_subnegotiation h.2 (fun he => absurd he (by decide))
  | newenviron cmd vars =>
      rw [Call.events, posted_newenviron, Call.meaning, ← reported_newenviron h.1 h.2.1]
      exact says_subnegotiation h.2.2 (fun he => absurd he (by decide))

/-- The buffer of a tracker is within its space from `telnet_init` on, whatever
has arrived. -/
theorem sized_recv (telopts : List Telopt) (flags : UInt8) (blocks : List (List UInt8)) :
    Sized (feed telnet_recv (telnet_init telopts flags) blocks).1 := by
  have hinit : Sized (telnet_init telopts flags) := ⟨Nat.le_refl 0, List.mem_cons_self ..⟩
  have hstep : ∀ (bs : List UInt8) (t : Telnet), Sized t → Sized (feed byte_step t bs).1 := by
    intro bs
    induction bs with
    | nil => exact fun t h => h
    | cons b bs ih => exact fun t h => ih _ ((SameParse.refl h).step b).1.left
  generalize telnet_init telopts flags = t at hinit
  induction blocks generalizing t with
  | nil => exact hinit
  | cons bs blocks ih =>
      apply ih
      rw [telnet_recv_fst]
      exact hstep bs t hinit

/-- **What one application says is what the other is told**: whatever the list
of calls, and whatever blocks their bytes arrive in, at a tracker with any
options and any past that is between two commands. -/
theorem conversation_told (telopts : List Telopt) (flags : UInt8) (before : List (List UInt8))
    (hstate : (feed telnet_recv (telnet_init telopts flags) before).1.state = .DATA)
    (calls : List Call) (hcalls : ∀ c ∈ calls, c.Ok) (blocks : List (List UInt8))
    (hcut : blocks.flatten = posted (calls.flatMap Call.events)) :
    let t := (feed telnet_recv (telnet_init telopts flags) before).1
    bytewise (feed telnet_recv t blocks).2 = calls.flatMap Call.meaning
      ∧ (feed telnet_recv t blocks).1.state = .DATA
        ∧ SameTable t (feed telnet_recv t blocks).1 := by
  intro t
  have hsaid : Says (posted (calls.flatMap Call.events)) (calls.flatMap Call.meaning) := by
    rw [posted_flatMap]
    exact says_flatMap fun c hc => Call.said (hcalls c hc)
  obtain ⟨u, hgo, hu, _, htable⟩ := hsaid t hstate (sized_recv telopts flags before)
  rw [← hcut] at hgo
  obtain ⟨hfst, hsnd⟩ := recv_told blocks hgo.plain
  rw [hfst, hsnd, hgo.after, hgo.told]
  exact ⟨rfl, hu, htable⟩

/-- Data with an IAC in it, a line, and a ZMP command, one byte to a block: the
most the network can do to it. -/
theorem conversation_told_bytewise :
    let calls :=
      [Call.send [65, 255], .printf [66, 10], .zmp ⟨[67], by decide⟩ [⟨[68, 69], by decide⟩]]
    bytewise (feed telnet_recv (telnet_init [] 0)
        ((posted (calls.flatMap Call.events)).map fun b => [b])).2
      = [.DATA [65], .DATA [255], .DATA [66], .DATA [13], .DATA [10],
        .SUBNEGOTIATION TELNET_TELOPT_ZMP [67, 0, 68, 69, 0], .ZMP [[67], [68, 69]]] := by
  intro calls
  have hok : ∀ c ∈ calls, c.Ok := by
    simp only [calls, List.mem_cons, List.not_mem_nil, or_false]
    rintro c (rfl | rfl | rfl)
    · trivial
    · trivial
    · change List.length _ ≤ 16384
      decide
  have hcut : ((posted (calls.flatMap Call.events)).map fun b => [b]).flatten
      = posted (calls.flatMap Call.events) := by
    rw [← List.flatMap_def, List.flatMap_singleton']
  exact (conversation_told [] 0 [] rfl calls hok _ hcut).1

end AutoMag.Libtelnet
