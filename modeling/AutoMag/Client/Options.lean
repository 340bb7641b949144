/-
`Client/Options.lean` -- the options this client can be talked into.

With the option table of `telnet-projekat1.c` libtelnet never starts a negotiation
itself, so no option ever waits for an answer, and what can be agreed on is what the
table offers: ECHO, COMPRESS2 and MSSP on the other side, TTYPE on ours. `Turn` lists
everything one negotiation byte can then do; the option table, `do_echo` and the
replies follow from it.
-/
import Mathlib.Data.List.Perm.Subperm
import AutoMag.Client.Handler
import AutoMag.Libtelnet.Table

set_option autoImplicit false

namespace AutoMag.Client

open AutoMag.Libtelnet AutoMag.Machine

/-! ## The entries that can come up -/

/-- What the server may do for us. -/
def him_options : List UInt8 := [TELNET_TELOPT_ECHO, TELNET_TELOPT_COMPRESS2, TELNET_TELOPT_MSSP]

/-- What an entry of the table can hold. -/
def Legal (e : Rfc1143) : Prop :=
  (e.telopt ∈ him_options ∧ (e.state = Q_MAKE Q_NO Q_NO ∨ e.state = Q_MAKE Q_NO Q_YES))
    ∨ (e.telopt = TELNET_TELOPT_TTYPE
      ∧ (e.state = Q_MAKE Q_NO Q_NO ∨ e.state = Q_MAKE Q_YES Q_NO))

/-- The tracker of the client, with the entries `es` in its table. -/
structure Options (t : Telnet) (es : List Rfc1143) : Prop extends Table t es where
  telopts : t.telopts = Client.telopts
  flags : t.flags = 0
  legal : ∀ e ∈ es, Legal e

theorem Legal.mem {e : Rfc1143} (h : Legal e) :
    e.telopt ∈ TELNET_TELOPT_TTYPE :: him_options := by
  rcases h with ⟨h, _⟩ | ⟨h, _⟩
  · exact List.mem_cons_of_mem _ h
  · rw [h]
    exact List.mem_cons_self ..

/-- There are four options, and each has one entry at most. So the array has
room for all of them and never grows a fifth time. -/
theorem Options.length_le {t : Telnet} {es : List Rfc1143} (h : Options t es) : es.length ≤ 4 := by
  have hsub : es.map Rfc1143.telopt ⊆ TELNET_TELOPT_TTYPE :: him_options := by
    intro o ho
    obtain ⟨e, he, rfl⟩ := List.mem_map.mp ho
    exact (h.legal e he).mem
  -- no option has two entries
  have hlen := (List.Nodup.subperm h.nodup hsub).length_le
  rwa [List.length_map] at hlen

/-- The state of any option: nothing agreed, or the one thing that can be. The
client asks for nothing on its own, so no option is ever waiting for an
answer. -/
theorem Options.state {t : Telnet} {es : List Rfc1143} (h : Options t es) (o : UInt8) :
    (Q_US (lookup es o) = Q_NO ∧ Q_HIM (lookup es o) = Q_NO)
      ∨ (o ∈ him_options ∧ Q_US (lookup es o) = Q_NO ∧ Q_HIM (lookup es o) = Q_YES)
      ∨ (o = TELNET_TELOPT_TTYPE ∧ Q_US (lookup es o) = Q_YES ∧ Q_HIM (lookup es o) = Q_NO) := by
  unfold Q_US Q_HIM
  rcases lookup_mem es o with hnone | ⟨hmem, ho⟩
  -- no entry: both halves of the state read as `Q_NO`
  · have hempty : (0 : UInt8) &&& 0x0F = Q_NO ∧ ((0 : UInt8) &&& 0xF0) >>> 4 = Q_NO := by decide
    rw [hnone]
    exact Or.inl hempty
  · have hlegal := h.legal _ hmem
    rw [Legal, ho] at hlegal
    rcases hlegal with ⟨hhim, hs | hs⟩ | ⟨hus, hs | hs⟩
    · rw [hs]; exact Or.inl ⟨rfl, rfl⟩
    · rw [hs]; exact Or.inr (Or.inl ⟨hhim, rfl, rfl⟩)
    · rw [hs]; exact Or.inl ⟨rfl, rfl⟩
    · rw [hs]; exact Or.inr (Or.inr ⟨hus, rfl, rfl⟩)

/-- The client's table: what it lets the server do. -/
theorem check_telopt_him {t : Telnet} (ht : t.telopts = telopts) (o : UInt8) :
    check_telopt t o false = decide (o ∈ him_options) := by
  unfold check_telopt
  rw [ht]
  by_cases h1 : o = TELNET_TELOPT_ECHO
  · subst h1; decide
  by_cases h2 : o = TELNET_TELOPT_TTYPE
  · subst h2; decide
  by_cases h3 : o = TELNET_TELOPT_COMPRESS2
  · subst h3; decide
  by_cases h4 : o = TELNET_TELOPT_MSSP
  · subst h4; decide
  · simp [telopts, him_options, h1, h3, h4, Ne.symm h1, Ne.symm h2, Ne.symm h3, Ne.symm h4]

theorem check_telopt_us {t : Telnet} (ht : t.telopts = telopts) (o : UInt8) :
    check_telopt t o true = decide (o = TELNET_TELOPT_TTYPE) := by
  unfold check_telopt
  rw [ht]
  by_cases h1 : o = TELNET_TELOPT_ECHO
  · subst h1; decide
  by_cases h2 : o = TELNET_TELOPT_TTYPE
  · subst h2; decide
  by_cases h3 : o = TELNET_TELOPT_COMPRESS2
  · subst h3; decide
  by_cases h4 : o = TELNET_TELOPT_MSSP
  · subst h4; decide
  · simp [telopts, h2, Ne.symm h1, Ne.symm h2, Ne.symm h3, Ne.symm h4]

/-! ## One negotiation -/

/-- What the byte after a verb can do. -/
inductive Turn (t : Telnet) (o : UInt8) : Telnet × List Event → Prop
  | silent : Turn t o (t, [])
  | refuse_him : Turn t o (t, [send_negotiate TELNET_DONT o])
  | refuse_us : Turn t o (t, [send_negotiate TELNET_WONT o])
  | him_on (ho : o ∈ him_options) : Turn t o
      (set_rfc1143 t o Q_NO Q_YES, [send_negotiate TELNET_DO o, .WILL o])
  | him_off (ho : o ∈ him_options) : Turn t o
      (set_rfc1143 t o Q_NO Q_NO, [send_negotiate TELNET_DONT o, .WONT o])
  | us_on (ho : o = TELNET_TELOPT_TTYPE) : Turn t o
      (set_rfc1143 t o Q_YES Q_NO, [send_negotiate TELNET_WILL o, .DO o])
  | us_off (ho : o = TELNET_TELOPT_TTYPE) : Turn t o
      (set_rfc1143 t o Q_NO Q_NO, [send_negotiate TELNET_WONT o, .DONT o])

theorem him_not_ttype {o : UInt8} (h : o ∈ him_options) : o ≠ TELNET_TELOPT_TTYPE := by
  rintro rfl
  revert h
  decide

/-- **A negotiation is one of these turns.** The six states of RFC 1143 come
down to two for a client that only answers. -/
theorem Options.negotiate_turn {t : Telnet} {es : List Rfc1143} (h : Options t es) (o : UInt8) :
    Turn t o (negotiate t o) := by
  -- the client does not set the PROXY flag
  have hflags : ¬ t.flags &&& TELNET_FLAG_PROXY ≠ 0 := by
    rw [h.flags]
    decide
  unfold negotiate
  rw [if_neg hflags, h.get o]
  -- by `Options.state` the halves are `Q_NO` or `Q_YES`, so of each `switch` two cases
  -- are left
  cases hs : t.state with
  | WILL =>
      simp only [negotiate_will, check_telopt_him h.telopts]
      rcases h.state o with ⟨hus, hhim⟩ | ⟨ho, hus, hhim⟩ | ⟨rfl, hus, hhim⟩
      · rw [hus, hhim, if_pos rfl]
        split
        · next ho => exact .him_on (by simpa using ho)
        · exact .refuse_him
      · rw [hus, hhim]
        exact .silent
      · rw [hus, hhim]
        exact .refuse_him
  | WONT =>
      simp only [negotiate_wont]
      rcases h.state o with ⟨hus, hhim⟩ | ⟨ho, hus, hhim⟩ | ⟨rfl, hus, hhim⟩
      · rw [hus, hhim]
        exact .silent
      · rw [hus, hhim]
        exact .him_off ho
      · rw [hus, hhim]
        exact .silent
  | DO =>
      simp only [negotiate_do, check_telopt_us h.telopts]
      rcases h.state o with ⟨hus, hhim⟩ | ⟨ho, hus, hhim⟩ | ⟨rfl, hus, hhim⟩
      · rw [hus, hhim, if_pos rfl]
        split
        · next ho => exact .us_on (by simpa using ho)
        · exact .refuse_us
      -- the server does this for us already; we do not offer it ourselves
      · have hne := him_not_ttype ho
        rw [hus, hhim, if_pos rfl, if_neg (by simpa using hne)]
        exact .refuse_us
      · rw [hus, hhim]
        exact .silent
  | DONT =>
      simp only [negotiate_dont]
      rcases h.state o with ⟨hus, hhim⟩ | ⟨ho, hus, hhim⟩ | ⟨rfl, hus, hhim⟩
      · rw [hus, hhim]
        exact .silent
      · rw [hus, hhim]
        exact .silent
      · rw [hus, hhim]
        exact .us_off rfl
  | _ => exact .silent

/-! ## The table over a stream -/

/-- The client's tracker after a change that leaves the table alone: any byte
but the one after a verb. -/
theorem Options.congr {t t' : Telnet} {es : List Rfc1143} (h : Options t es) (hq : t'.q = t.q)
    (hsize : t'.q_size = t.q_size) (htelopts : t'.telopts = t.telopts)
    (hflags : t'.flags = t.flags) : Options t' es :=
  ⟨⟨hq.trans h.q, by rw [hsize]; exact h.q_size, h.nodup, h.nonzero⟩, htelopts.trans h.telopts,
    hflags.trans h.flags, h.legal⟩

theorem set_rfc1143_keeps (t : Telnet) (o us him : UInt8) :
    (set_rfc1143 t o us him).telopts = t.telopts ∧ (set_rfc1143 t o us him).flags = t.flags := by
  unfold set_rfc1143
  split <;> exact ⟨rfl, rfl⟩

/-- A new state for an option, if it is a legal one. -/
theorem Options.set {t : Telnet} {es : List Rfc1143} (h : Options t es) {o us him : UInt8}
    (hlegal : Legal ⟨o, Q_MAKE us him⟩) :
    Options (set_rfc1143 t o us him) (update o (Q_MAKE us him) es) := by
  have ho : o ≠ 0 := by
    rintro rfl
    have hmem : 0 ∈ TELNET_TELOPT_TTYPE :: him_options := hlegal.mem
    revert hmem
    decide
  have hlen := h.length_le
  refine ⟨h.toTable.set ho (by omega) us him, ?_, ?_, ?_⟩
  · exact (set_rfc1143_keeps t o us him).1.trans h.telopts
  · exact (set_rfc1143_keeps t o us him).2.trans h.flags
  · intro e he
    rcases mem_update he with rfl | he
    · exact hlegal
    · exact h.legal e he

/-- The entries after a turn: as before, or with one of them updated. -/
theorem Turn.options {t : Telnet} {es : List Rfc1143} {o : UInt8} {r : Telnet × List Event}
    (hturn : Turn t o r) (h : Options t es) : ∃ es', Options r.1 es'
      ∧ (es' = es ∨ ∃ state, es' = update o state es) := by
  cases hturn with
  | silent => exact ⟨es, h, Or.inl rfl⟩
  | refuse_him => exact ⟨es, h, Or.inl rfl⟩
  | refuse_us => exact ⟨es, h, Or.inl rfl⟩
  | him_on ho => exact ⟨_, h.set (Or.inl ⟨ho, Or.inr rfl⟩), Or.inr ⟨_, rfl⟩⟩
  | him_off ho => exact ⟨_, h.set (Or.inl ⟨ho, Or.inl rfl⟩), Or.inr ⟨_, rfl⟩⟩
  | us_on ho => exact ⟨_, h.set (Or.inr ⟨ho, Or.inr rfl⟩), Or.inr ⟨_, rfl⟩⟩
  | us_off ho => exact ⟨_, h.set (Or.inr ⟨ho, Or.inl rfl⟩), Or.inr ⟨_, rfl⟩⟩

/-- The entries after one byte, wherever the parser stands. This is the step of
the invariant. -/
theorem Options.byte {t : Telnet} {es : List Rfc1143} (h : Options t es) (b : UInt8) :
    ∃ es', Options (byte_step t b).1 es' ∧ (es' = es ∨ ∃ o state, es' = update o state es) := by
  -- only the byte after a verb can touch the table
  by_cases hv : t.state.isVerb
  · obtain ⟨ht, _⟩ := process_byte_verb t b hv
    obtain ⟨es', hes', hor⟩ := (h.negotiate_turn b).options h
    refine ⟨es', ?_, hor.imp id fun ⟨state, hst⟩ => ⟨b, state, hst⟩⟩
    rw [byte_step, ht]
    exact hes'.congr rfl rfl rfl rfl
  · obtain ⟨hsame, _⟩ := process_byte_apart t b hv
    exact ⟨es, h.congr hsame.q hsame.q_size hsame.telopts hsame.flags, Or.inl rfl⟩

/-- The insertions into the table over a stream: the bytes at which it grew. -/
def insertions (t : Telnet) : List UInt8 → ℕ
  | [] => 0
  | b :: bs =>
      (if (byte_step t b).1.q.length = t.q.length then 0 else 1) + insertions (byte_step t b).1 bs

theorem Options.q_length {t : Telnet} {es : List Rfc1143} (h : Options t es) :
    t.q.length = 4 * es.length := by
  rw [h.q, rows_length]

/-- Every insertion is one more entry in use. By induction on the bytes,
counting the insertions as the machine makes them. -/
theorem Options.feed {t : Telnet} {es : List Rfc1143} (h : Options t es) (bs : List UInt8) :
    ∃ es', Options (feed byte_step t bs).1 es' ∧ es'.length = es.length + insertions t bs := by
  induction bs generalizing t es with
  | nil => exact ⟨es, h, rfl⟩
  | cons b bs ih =>
      obtain ⟨es₁, h₁, hor⟩ := h.byte b
      obtain ⟨es₂, h₂, hlen⟩ := ih h₁
      refine ⟨es₂, h₂, ?_⟩
      -- an update makes the table longer exactly when the option had no entry
      have hgrow : es₁.length = es.length ∨ es₁.length = es.length + 1 := by
        rcases hor with rfl | ⟨o, state, rfl⟩
        · exact Or.inl rfl
        · rw [update_length]
          split
          · exact Or.inl rfl
          · exact Or.inr rfl
      rw [hlen, insertions, h.q_length, h₁.q_length]
      split <;> omega

/-! ## `do_echo` -/

/-- `do_echo` is off exactly while the server has agreed to echo. -/
def Mirrors (t : Telnet) (do_echo : Bool) : Prop :=
  do_echo = false ↔ Q_HIM (get_rfc1143 t TELNET_TELOPT_ECHO) = Q_YES

theorem echo_apart (evs : List Event) (h : ∀ ev ∈ evs, ¬ ev.isNegotiation) (e : Bool) :
    evs.foldl echo_after e = e := by
  induction evs with
  | nil => rfl
  | cons ev evs ih =>
      have hev := h ev (List.mem_cons_self ..)
      have hecho : echo_after e ev = e := by
        cases ev with
        | WILL o => exact absurd rfl hev
        | WONT o => exact absurd rfl hev
        | _ => rfl
      rw [List.foldl_cons, hecho, ih fun ev' h' => h ev' (List.mem_cons_of_mem _ h')]

/-- A turn moves `do_echo` with the state of ECHO. The event that switches the
echo is raised just where the state changes. -/
theorem Turn.mirrors {t : Telnet} {es : List Rfc1143} {o : UInt8} {r : Telnet × List Event}
    (hturn : Turn t o r) (h : Options t es) {e : Bool} (hm : Mirrors t e) :
    Mirrors r.1 (r.2.foldl echo_after e) := by
  -- the state of ECHO after the option `o` was set
  have hset : ∀ us him, Legal ⟨o, Q_MAKE us him⟩ →
      get_rfc1143 (set_rfc1143 t o us him) TELNET_TELOPT_ECHO
        = if TELNET_TELOPT_ECHO = o then ⟨o, Q_MAKE us him⟩
          else get_rfc1143 t TELNET_TELOPT_ECHO := by
    intro us him hlegal
    rw [(h.set hlegal).get, h.get, lookup_update]
  cases hturn with
  | silent => exact hm
  | refuse_him => exact hm
  | refuse_us => exact hm
  | him_on ho =>
      unfold Mirrors at hm ⊢
      rw [hset _ _ (Or.inl ⟨ho, Or.inr rfl⟩)]
      by_cases heq : TELNET_TELOPT_ECHO = o
      · have hon : Q_HIM ⟨o, Q_MAKE Q_NO Q_YES⟩ = Q_YES := by
          rw [← heq]
          decide
        rw [if_pos heq]
        exact iff_of_true (by simp [send_negotiate, echo_after, ← heq]) hon
      · rw [if_neg heq]
        simpa [send_negotiate, echo_after, Ne.symm heq] using hm
  | him_off ho =>
      unfold Mirrors at hm ⊢
      rw [hset _ _ (Or.inl ⟨ho, Or.inl rfl⟩)]
      by_cases heq : TELNET_TELOPT_ECHO = o
      · have hoff : Q_HIM ⟨o, Q_MAKE Q_NO Q_NO⟩ ≠ Q_YES := by
          rw [← heq]
          decide
        rw [if_pos heq]
        exact iff_of_false (by simp [send_negotiate, echo_after, ← heq]) hoff
      · rw [if_neg heq]
        simpa [send_negotiate, echo_after, Ne.symm heq] using hm
  -- TTYPE is not ECHO
  | us_on ho =>
      unfold Mirrors
      rw [hset _ _ (Or.inr ⟨ho, Or.inr rfl⟩), if_neg (by rw [ho]; decide)]
      exact hm
  | us_off ho =>
      unfold Mirrors
      rw [hset _ _ (Or.inr ⟨ho, Or.inl rfl⟩), if_neg (by rw [ho]; decide)]
      exact hm

/-- What holds between blocks. -/
def EchoInv (t : Telnet) (do_echo : Bool) : Prop := (∃ es, Options t es) ∧ Mirrors t do_echo

/-- One byte keeps both: the table in order, and `do_echo` with it. -/
theorem EchoInv.byte {t : Telnet} {e : Bool} (h : EchoInv t e) (b : UInt8) :
    EchoInv (byte_step t b).1 ((byte_step t b).2.foldl echo_after e) := by
  obtain ⟨⟨es, hes⟩, hm⟩ := h
  obtain ⟨es', hes', _⟩ := hes.byte b
  refine ⟨⟨es', hes'⟩, ?_⟩
  by_cases hv : t.state.isVerb
  · obtain ⟨ht, hev⟩ := process_byte_verb t b hv
    have hturn := (hes.negotiate_turn b).mirrors hes hm
    rw [byte_step, ht, hev]
    exact hturn
  · obtain ⟨hsame, hev⟩ := process_byte_apart t b hv
    rw [byte_step, echo_apart _ hev]
    unfold Mirrors get_rfc1143
    rw [hsame.q, hsame.q_size]
    exact hm

/-- `DATA` events do not matter to `do_echo`, so the cut of the data into events
does not either. -/
theorem echo_control (evs : List Event) (e : Bool) :
    evs.foldl echo_after e = (control evs).foldl echo_after e := by
  induction evs generalizing e with
  | nil => rfl
  | cons ev evs ih =>
      cases ev <;> exact ih _

theorem client_recv_telnet (term : List UInt8) (c : Session) (bytes : List UInt8)
    (hc : c.status = .running) :
    (client_recv term c bytes).telnet = (feed byte_step c.telnet bytes).1 := by
  rw [client_recv_spec term c bytes hc, telnet_recv_fst]

theorem client_recv_do_echo (term : List UInt8) (c : Session) (bytes : List UInt8)
    (hc : c.status = .running) :
    (client_recv term c bytes).do_echo
      = (feed byte_step c.telnet bytes).2.foldl echo_after c.do_echo := by
  rw [client_recv_spec term c bytes hc, echo_control, telnet_recv_control, ← echo_control]

theorem EchoInv.recv {c : Session} (h : EchoInv c.telnet c.do_echo) (hc : c.status = .running)
    (term bytes : List UInt8) :
    EchoInv (client_recv term c bytes).telnet (client_recv term c bytes).do_echo := by
  rw [client_recv_telnet term c bytes hc, client_recv_do_echo term c bytes hc]
  exact feed_fold_invariant byte_step echo_after (fun t e b h => h.byte b) h bytes

theorem options_start : Options Session.start.telnet [] :=
  ⟨⟨rfl, rfl, by simp, by simp⟩, rfl, rfl, by simp⟩

theorem echo_inv_start : EchoInv Session.start.telnet Session.start.do_echo :=
  ⟨⟨[], options_start⟩, by unfold Mirrors; decide⟩

/-- Blocks in turn are one stream to the tracker, since the client goes on after
each of them. -/
theorem blocks_telnet (term : List UInt8) (blocks : List (List UInt8)) : ∀ c : Session,
    c.status = .running →
    (blocks.foldl (client_recv term) c).status = .running
      ∧ (blocks.foldl (client_recv term) c).telnet
        = (feed byte_step c.telnet blocks.flatten).1 := by
  induction blocks with
  | nil =>
      intro c hc
      exact ⟨hc, rfl⟩
  | cons b blocks ih =>
      intro c hc
      have hrun : (client_recv term c b).status = .running := by
        rw [client_recv_spec term c b hc]
      obtain ⟨hst, ht⟩ := ih (client_recv term c b) hrun
      refine ⟨hst, ?_⟩
      rw [List.foldl_cons, ht, client_recv_telnet term c b hc, List.flatten_cons, feed_append]

/-- And `do_echo` is right after all of them. -/
theorem blocks_echo (term : List UInt8) (blocks : List (List UInt8)) : ∀ c : Session,
    c.status = .running → EchoInv c.telnet c.do_echo →
    EchoInv (blocks.foldl (client_recv term) c).telnet
      (blocks.foldl (client_recv term) c).do_echo := by
  induction blocks with
  | nil =>
      intro c _ h
      exact h
  | cons b blocks ih =>
      intro c hc h
      exact ih (client_recv term c b) (by rw [client_recv_spec term c b hc]) (h.recv hc term b)

/-- **Echo mirrors the option.** After any blocks `do_echo` is off iff the
server echoes; every option is plainly on or off; only what the client's table
offers is ever on; and the RFC 1143 table has grown at most four times, by four
entries each. -/
theorem echo_mirrors_option (term : List UInt8) (blocks : List (List UInt8)) :
    ((blocks.foldl (client_recv term) Session.start).do_echo = false
      ↔ Q_HIM (get_rfc1143 (blocks.foldl (client_recv term) Session.start).telnet
        TELNET_TELOPT_ECHO) = Q_YES)
    ∧ (∀ o, (Q_HIM (get_rfc1143 (blocks.foldl (client_recv term) Session.start).telnet o) = Q_NO
          ∨ (Q_HIM (get_rfc1143 (blocks.foldl (client_recv term) Session.start).telnet o) = Q_YES
            ∧ o ∈ [TELNET_TELOPT_ECHO, TELNET_TELOPT_COMPRESS2, TELNET_TELOPT_MSSP]))
        ∧ (Q_US (get_rfc1143 (blocks.foldl (client_recv term) Session.start).telnet o) = Q_NO
          ∨ (Q_US (get_rfc1143 (blocks.foldl (client_recv term) Session.start).telnet o) = Q_YES
            ∧ o = TELNET_TELOPT_TTYPE)))
    ∧ insertions Session.start.telnet blocks.flatten ≤ 4
    ∧ (blocks.foldl (client_recv term) Session.start).telnet.q.length
        = 4 * insertions Session.start.telnet blocks.flatten
    ∧ (blocks.foldl (client_recv term) Session.start).telnet.q_size.toNat
        = 4 * insertions Session.start.telnet blocks.flatten
    ∧ (∀ e ∈ (blocks.foldl (client_recv term) Session.start).telnet.q, e = ⟨0, 0⟩
        ∨ e.telopt ∈ [TELNET_TELOPT_TTYPE, TELNET_TELOPT_ECHO, TELNET_TELOPT_COMPRESS2,
          TELNET_TELOPT_MSSP])
    ∧ ∀ o ∈ [TELNET_TELOPT_TTYPE, TELNET_TELOPT_ECHO, TELNET_TELOPT_COMPRESS2,
        TELNET_TELOPT_MSSP],
      ((blocks.foldl (client_recv term) Session.start).telnet.q.filter
        (·.telopt = o)).length ≤ 1 := by
  obtain ⟨_, ht⟩ := blocks_telnet term blocks Session.start rfl
  obtain ⟨_, hmirrors⟩ := blocks_echo term blocks Session.start rfl echo_inv_start
  obtain ⟨es, hes, hlen⟩ := options_start.feed blocks.flatten
  rw [← ht] at hes
  rw [List.length_nil, Nat.zero_add] at hlen
  refine ⟨hmirrors, ?_, ?_, ?_, ?_, ?_, ?_⟩
  · intro o
    rw [hes.get]
    rcases hes.state o with ⟨hus, hhim⟩ | ⟨ho, hus, hhim⟩ | ⟨ho, hus, hhim⟩
    · exact ⟨Or.inl hhim, Or.inl hus⟩
    · exact ⟨Or.inr ⟨hhim, ho⟩, Or.inl hus⟩
    · exact ⟨Or.inl hhim, Or.inr ⟨hus, ho⟩⟩
  · rw [← hlen]
    exact hes.length_le
  · rw [hes.q_length, hlen]
  · rw [hes.q_size, hlen]
  · intro e he
    rw [hes.q] at he
    obtain ⟨e', he', hmem⟩ := List.mem_flatMap.mp he
    simp only [List.mem_cons, List.not_mem_nil, or_false] at hmem
    -- an entry in use, or one of the three blank ones behind it
    rcases hmem with rfl | rfl | rfl | rfl
    · exact Or.inr (hes.legal e he').mem
    · exact Or.inl rfl
    · exact Or.inl rfl
    · exact Or.inl rfl
  · intro o ho
    apply hes.toTable.filter_le
    rintro rfl
    revert ho
    decide

end AutoMag.Client
