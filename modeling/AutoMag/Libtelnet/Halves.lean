/-
`Libtelnet/Halves.lean` -- the option table as the Q method's two halves an option.

`Table.lean` reads the array as the list of entries in use, and leaves option 0 aside,
for which a blank entry serves. Here the array is read as a function: for each option,
0 included, its `us` half and its `him` half. `_negotiate` and `telnet_negotiate` are
then `Half.hear` and `Half.ask` at one option, and leave every other option alone. That
holds as long as the 8-bit `q_size` has not wrapped, which takes 64 options (`Roomy`).
-/
import Mathlib.Data.Finset.Card
import Mathlib.Data.List.Nodup
import AutoMag.Lib.QMethod
import AutoMag.Libtelnet.Send
import AutoMag.Libtelnet.Table

set_option autoImplicit false

namespace AutoMag.Libtelnet

open AutoMag.QMethod

/-! ## 1. The codes of the states -/

def code : Half → UInt8
  | .NO => Q_NO
  | .YES => Q_YES
  | .WANTNO => Q_WANTNO
  | .WANTYES => Q_WANTYES
  | .WANTNO_OP => Q_WANTNO_OP
  | .WANTYES_OP => Q_WANTYES_OP

def decoded (q : UInt8) : Half :=
  if q = Q_YES then .YES
  else if q = Q_WANTNO then .WANTNO
  else if q = Q_WANTYES then .WANTYES
  else if q = Q_WANTNO_OP then .WANTNO_OP
  else if q = Q_WANTYES_OP then .WANTYES_OP
  else .NO

@[simp] theorem decoded_code (h : Half) : decoded (code h) = h := by
  revert h
  decide

/-- The two nibbles of an entry do not get in each other's way. Checked for all
pairs of states, which is all that the table ever holds. -/
theorem nibbles (us him : Half) (o : UInt8) :
    Q_US ⟨o, Q_MAKE (code us) (code him)⟩ = code us
      ∧ Q_HIM ⟨o, Q_MAKE (code us) (code him)⟩ = code him := by
  have hall : ∀ us him : Half, (Q_MAKE (code us) (code him) &&& 0x0F) = code us
      ∧ ((Q_MAKE (code us) (code him) &&& 0xF0) >>> 4) = code him := by decide
  exact hall us him

/-! ## 2. The array as a function -/

/-- The two halves the table holds for an option. -/
def halves (t : Telnet) (o : UInt8) : Half × Half :=
  (decoded (Q_US (get_rfc1143 t o)), decoded (Q_HIM (get_rfc1143 t o)))

/-- Every entry is one the library writes. -/
def Coded (t : Telnet) : Prop :=
  ∀ o, get_rfc1143 t o = ⟨o, Q_MAKE (code (halves t o).1) (code (halves t o).2)⟩

/-- Under `Coded` an entry is read as a pair of states, with no code the source
does not know. -/
theorem Coded.q_us {t : Telnet} (h : Coded t) (o : UInt8) :
    Q_US (get_rfc1143 t o) = code (halves t o).1 := by
  rw [h o]
  exact (nibbles _ _ o).1

theorem Coded.q_him {t : Telnet} (h : Coded t) (o : UInt8) :
    Q_HIM (get_rfc1143 t o) = code (halves t o).2 := by
  rw [h o]
  exact (nibbles _ _ o).2

/-- The array is as long as `q_size` says, four entries for each of some options
of `S`. -/
structure Roomy (S : Finset UInt8) (t : Telnet) : Prop where
  size : t.q_size.toNat = t.q.length
  grown : ∃ es : List UInt8, es.Nodup ∧ (∀ o ∈ es, o ∈ S) ∧ (∀ o ∈ es, o ∈ t.q.map Rfc1143.telopt)
    ∧ t.q.length = 4 * es.length

theorem Roomy.take {S : Finset UInt8} {t : Telnet} (h : Roomy S t) :
    t.q.take t.q_size.toNat = t.q := by
  rw [h.size, List.take_length]

/-- While the array is no longer than `q_size` says, the search goes over all of
it. -/
theorem Roomy.get {S : Finset UInt8} {t : Telnet} (h : Roomy S t) (o : UInt8) :
    get_rfc1143 t o = lookup t.q o := by
  rw [get_rfc1143, h.take]
  rfl

/-- The entry found is the one that is overwritten, and lookups for other
options pass over it. -/
theorem lookup_modify {q : List Rfc1143} {o : UInt8} {i : ℕ} (state o' : UInt8)
    (h : q.findIdx? (·.telopt = o) = some i) :
    lookup (q.modify i fun e => { e with state := state }) o'
      = if o' = o then ⟨o, state⟩ else lookup q o' := by
  induction q generalizing i with
  | nil => cases h
  | cons e q ih =>
      rw [List.findIdx?_cons] at h
      by_cases he : e.telopt = o
      · rw [if_pos (by simpa using he)] at h
        cases h
        rw [List.modify_zero_cons, lookup_cons, lookup_cons]
        by_cases ho : o' = o
        · simp [he, ho]
        · simp [he, ho, Ne.symm ho]
      · rw [if_neg (by simpa using he)] at h
        obtain ⟨j, hj, rfl⟩ := Option.map_eq_some_iff.mp h
        rw [List.modify_succ_cons, lookup_cons, ih hj, lookup_cons]
        by_cases ho : o' = o
        · subst ho
          simp [he]
        · simp [ho]

/-- A new entry, and the blank ones behind it, which read as empty for option
0. -/
theorem lookup_grown {q : List Rfc1143} {o : UInt8} (state o' : UInt8)
    (h : o ∉ q.map Rfc1143.telopt) :
    lookup (q ++ [⟨o, state⟩, ⟨0, 0⟩, ⟨0, 0⟩, ⟨0, 0⟩]) o'
      = if o' = o then ⟨o, state⟩ else lookup q o' := by
  induction q with
  | nil =>
      rw [List.nil_append, lookup_cons]
      by_cases ho : o = o'
      · simp [ho]
      · simp only [ho, Ne.symm ho, if_false, lookup_cons, lookup_nil]
        by_cases h0 : (0 : UInt8) = o'
        · simp [← h0]
        · simp [h0]
  | cons e q ih =>
      have hne : e.telopt ≠ o := fun he => h (by simp [he])
      rw [List.cons_append, lookup_cons, lookup_cons, ih fun hm => h (List.mem_cons_of_mem _ hm)]
      by_cases ho : o' = o
      · subst ho
        simp [hne]
      · simp [ho]

/-- Writing a state leaves the options in the array as they are. -/
theorem telopts_modify (q : List Rfc1143) (i : ℕ) (state : UInt8) :
    (q.modify i fun e => { e with state := state }).map Rfc1143.telopt = q.map Rfc1143.telopt := by
  induction q generalizing i with
  | nil => simp
  | cons e q ih =>
      cases i with
      | zero => rfl
      | succ i => rw [List.modify_succ_cons, List.map_cons, List.map_cons, ih]

/-- **`_set_rfc1143` writes one option**, and there is room for all of `S`. With
fewer than 64 options the 8-bit size does not wrap. -/
theorem Roomy.set {S : Finset UInt8} (hS : S.card < 64) {t : Telnet} (h : Roomy S t) {o : UInt8}
    (ho : o ∈ S) (us him : UInt8) :
    Roomy S (set_rfc1143 t o us him)
      ∧ ∀ o', get_rfc1143 (set_rfc1143 t o us him) o'
          = if o' = o then ⟨o, Q_MAKE us him⟩ else get_rfc1143 t o' := by
  obtain ⟨es, hnodup, hsub, hin, hlen⟩ := h.grown
  suffices hroomy : Roomy S (set_rfc1143 t o us him) by
    refine ⟨hroomy, fun o' => ?_⟩
    rw [hroomy.get, h.get]
    unfold set_rfc1143
    rw [h.take]
    cases hfind : t.q.findIdx? (·.telopt = o) with
    | some i => exact lookup_modify (Q_MAKE us him) o' hfind
    | none =>
        apply lookup_grown
        simpa [List.findIdx?_eq_none_iff] using hfind
  unfold set_rfc1143
  rw [h.take]
  cases hfind : t.q.findIdx? (·.telopt = o) with
  | some i =>
      refine ⟨by simpa using h.size, es, hnodup, hsub, ?_, by simpa using hlen⟩
      rw [telopts_modify]
      exact hin
  | none =>
      have hnew : o ∉ t.q.map Rfc1143.telopt := by simpa [List.findIdx?_eq_none_iff] using hfind
      have hnodup' : (o :: es).Nodup := List.nodup_cons.mpr ⟨fun hm => hnew (hin o hm), hnodup⟩
      have hsub' : ∀ e ∈ o :: es, e ∈ S := by
        intro e he
        rcases List.mem_cons.mp he with rfl | he
        · exact ho
        · exact hsub e he
      -- one more option of `S`, so at most 63 of them and `q_size + 4` does not wrap
      have hcard : es.length + 1 ≤ S.card := by
        rw [← List.length_cons (a := o), ← List.toFinset_card_of_nodup hnodup']
        exact Finset.card_le_card fun e he => hsub' e (List.mem_toFinset.mp he)
      refine ⟨?_, o :: es, hnodup', hsub', ?_, ?_⟩
      · have hq := h.size
        simp only [UInt8.toNat_add, List.length_append, List.length_cons, List.length_nil]
        have h4 : (4 : UInt8).toNat = 4 := rfl
        omega
      · intro e he
        rw [List.map_append]
        rcases List.mem_cons.mp he with rfl | he
        · simp
        · exact List.mem_append_left _ (hin e he)
      · simp only [List.length_append, List.length_cons, List.length_nil]
        omega

/-! ## 3. What negotiation does to the halves -/

/-- The tracker is an end of a link for every option of `S`: its table is sound,
and it is not in proxy mode. -/
structure End (S : Finset UInt8) (t : Telnet) : Prop where
  roomy : Roomy S t
  coded : Coded t
  mode : t.flags &&& TELNET_FLAG_PROXY = 0

/-- A tracker begins with no options in use and all halves at NO. -/
theorem end_init (S : Finset UInt8) (telopts : List Telopt) : End S (telnet_init telopts 0) := by
  refine ⟨⟨rfl, [], List.nodup_nil, by simp, by simp, rfl⟩, fun o => ?_, by simp [telnet_init]⟩
  have hstate :
      (0 : UInt8) = Q_MAKE (code (decoded (Q_US ⟨0, 0⟩))) (code (decoded (Q_HIM ⟨0, 0⟩))) := by
    decide
  have hhalves : halves (telnet_init telopts 0) o
      = (decoded (Q_US ⟨0, 0⟩), decoded (Q_HIM ⟨0, 0⟩)) :=
    rfl
  rw [hhalves, ← hstate]
  rfl

section Set

variable {S : Finset UInt8} (hS : S.card < 64) {t : Telnet} (h : End S t) {o : UInt8} (ho : o ∈ S)
include hS h ho

/-- New halves for one option, the others' as they were. -/
theorem End.set (us him : Half) :
    End S (set_rfc1143 t o (code us) (code him))
      ∧ ∀ o', halves (set_rfc1143 t o (code us) (code him)) o'
          = if o' = o then (us, him) else halves t o' := by
  obtain ⟨hroomy, hget⟩ := h.roomy.set hS ho (code us) (code him)
  have hhalves : ∀ o', halves (set_rfc1143 t o (code us) (code him)) o'
      = if o' = o then (us, him) else halves t o' := by
    intro o'
    rw [halves, hget]
    split
    · rw [(nibbles us him o).1, (nibbles us him o).2, decoded_code, decoded_code]
    · rfl
  have hflags : (set_rfc1143 t o (code us) (code him)).flags = t.flags := by
    unfold set_rfc1143
    split <;> rfl
  refine ⟨⟨hroomy, fun o' => ?_, hflags.symm ▸ h.mode⟩, hhalves⟩
  rw [hget, hhalves]
  split
  · next he => rw [he]
  · exact h.coded o'

/-- The same with one of them as it was. -/
theorem End.set_us (us : Half) :
    End S (set_rfc1143 t o (code us) (Q_HIM (get_rfc1143 t o)))
      ∧ ∀ o', halves (set_rfc1143 t o (code us) (Q_HIM (get_rfc1143 t o))) o'
          = if o' = o then (us, (halves t o).2) else halves t o' := by
  rw [h.coded.q_him]
  exact h.set hS ho us (halves t o).2

theorem End.set_him (him : Half) :
    End S (set_rfc1143 t o (Q_US (get_rfc1143 t o)) (code him))
      ∧ ∀ o', halves (set_rfc1143 t o (Q_US (get_rfc1143 t o)) (code him)) o'
          = if o' = o then ((halves t o).1, him) else halves t o' := by
  rw [h.coded.q_us]
  exact h.set hS ho (halves t o).1 him

/-- The verb for the local end, and for the remote end. -/
def usVerb (on : Bool) : UInt8 := if on then TELNET_WILL else TELNET_WONT

def himVerb (on : Bool) : UInt8 := if on then TELNET_DO else TELNET_DONT

/-- What a change of an end's halves at one option comes to: the new tracker,
and the bytes that go out for it. -/
structure Changes (S : Finset UInt8) (t : Telnet) (o : UInt8) (new : Half × Half)
    (bytes : List UInt8) (r : Telnet × List Event) : Prop where
  fst : End S r.1
  halves : ∀ o', halves r.1 o' = if o' = o then new else Libtelnet.halves t o'
  posted : posted r.2 = bytes

omit hS ho in
/-- A branch that only raises events: nothing changes, if the half was already
what the Q method says. -/
theorem End.stays_us {us : Half} (hus : (Libtelnet.halves t o).1 = us) {evs : List Event}
    {bytes : List UInt8} (hp : Libtelnet.posted evs = bytes) :
    Changes S t o (us, (Libtelnet.halves t o).2) bytes (t, evs) := by
  refine ⟨h, fun o' => ?_, hp⟩
  split
  · next he => rw [he, ← hus]
  · rfl

omit hS ho in
theorem End.stays_him {him : Half} (hhim : (Libtelnet.halves t o).2 = him) {evs : List Event}
    {bytes : List UInt8} (hp : Libtelnet.posted evs = bytes) :
    Changes S t o ((Libtelnet.halves t o).1, him) bytes (t, evs) := by
  refine ⟨h, fun o' => ?_, hp⟩
  split
  · next he => rw [he, ← hhim]
  · rfl

/-- A branch that writes the own half. -/
theorem End.changes_us {us : Half} {evs : List Event} {bytes : List UInt8}
    (hp : Libtelnet.posted evs = bytes) :
    Changes S t o (us, (halves t o).2) bytes
      (set_rfc1143 t o (code us) (Q_HIM (get_rfc1143 t o)), evs) :=
  ⟨(h.set_us hS ho us).1, (h.set_us hS ho us).2, hp⟩

theorem End.changes_him {him : Half} {evs : List Event} {bytes : List UInt8}
    (hp : Libtelnet.posted evs = bytes) :
    Changes S t o ((halves t o).1, him) bytes
      (set_rfc1143 t o (Q_US (get_rfc1143 t o)) (code him), evs) :=
  ⟨(h.set_him hS ho him).1, (h.set_him hS ho him).2, hp⟩

/-- **`telnet_negotiate` is a request of the Q method**, for the local end. One
case for each state of the half, as RFC 1143 has them. -/
theorem End.ask_us (on : Bool) :
    Changes S t o (((halves t o).1.ask on).1, (halves t o).2)
      (((halves t o).1.ask on).2.flatMap fun on => [TELNET_IAC, usVerb on, o])
      (telnet_negotiate t (usVerb on) o) := by
  have hq := h.coded.q_us o
  have hm : ¬ (t.flags &&& TELNET_FLAG_PROXY ≠ 0) := not_not.mpr h.mode
  -- one case for each request and state, and in each the branch of the two switches it takes
  cases on <;> cases hu : (halves t o).1 <;> rw [hu] at hq <;>
    simp only [telnet_negotiate, if_neg hm, hq, Half.ask] <;>
    first
      | exact h.stays_us hu rfl
      | exact h.changes_us hS ho rfl

/-- The same for the remote end, with DO and DONT for WILL and WONT. -/
theorem End.ask_him (on : Bool) :
    Changes S t o ((halves t o).1, ((halves t o).2.ask on).1)
      (((halves t o).2.ask on).2.flatMap fun on => [TELNET_IAC, himVerb on, o])
      (telnet_negotiate t (himVerb on) o) := by
  have hq := h.coded.q_him o
  have hm : ¬ (t.flags &&& TELNET_FLAG_PROXY ≠ 0) := not_not.mpr h.mode
  cases on <;> cases hu : (halves t o).2 <;> rw [hu] at hq <;>
    simp only [telnet_negotiate, if_neg hm, hq, Half.ask] <;>
    first
      | exact h.stays_him hu rfl
      | exact h.changes_him hS ho rfl

/-- **`_negotiate` is an arrival of the Q method.** A DO or a DONT is about the
local end, which sends what it has queued. -/
theorem End.hear_us (on : Bool) (hs : t.state = if on then .DO else .DONT) :
    Changes S t o (((halves t o).1.hear (check_telopt t o true) true on).1, (halves t o).2)
      (((halves t o).1.hear (check_telopt t o true) true on).2.flatMap
        fun on => [TELNET_IAC, usVerb on, o])
      (negotiate t o) := by
  have hq := h.coded.q_us o
  have hm : ¬ (t.flags &&& TELNET_FLAG_PROXY ≠ 0) := not_not.mpr h.mode
  cases on <;> cases hu : (halves t o).1 <;> cases hc : check_telopt t o true <;> rw [hu] at hq <;>
    simp only [negotiate, if_neg hm, hs, negotiate_do, negotiate_dont, hq, hc, Half.hear] <;>
    first
      | exact h.stays_us hu rfl
      | exact h.changes_us hS ho rfl

/-- A WILL or a WONT is about the remote end, and a queued DO does not go out:
in WANTNO_OP the source raises the event and sends nothing (`libtelnet.c` 414 to
417). So this half runs the method with `resends` false. -/
theorem End.hear_him (on : Bool) (hs : t.state = if on then .WILL else .WONT) :
    Changes S t o ((halves t o).1, ((halves t o).2.hear (check_telopt t o false) false on).1)
      (((halves t o).2.hear (check_telopt t o false) false on).2.flatMap
        fun on => [TELNET_IAC, himVerb on, o])
      (negotiate t o) := by
  have hq := h.coded.q_him o
  have hm : ¬ (t.flags &&& TELNET_FLAG_PROXY ≠ 0) := not_not.mpr h.mode
  cases on <;> cases hu : (halves t o).2 <;> cases hc : check_telopt t o false <;> rw [hu] at hq <;>
    simp only [negotiate, if_neg hm, hs, negotiate_will, negotiate_wont, hq, hc, Half.hear] <;>
    first
      | exact h.stays_him hu rfl
      | exact h.changes_him hS ho rfl

end Set

end AutoMag.Libtelnet
