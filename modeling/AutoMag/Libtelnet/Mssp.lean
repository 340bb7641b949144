/-
`Libtelnet/Mssp.lean` -- the entries of an MSSP event.

`_mssp_telnet` counts the VALs of the buffer first and allocates an entry for each, all zero;
then it goes over the buffer again and fills them in, one for each value it comes to. A VAL at
the very end is counted, but the loop is over before it comes to its value: that entry goes to
the application with two null pointers, which the documentation says cannot happen. Nothing
else goes wrong: with no such VAL in a stream, no event of it has an unset entry
(`Valued.set`).
-/
import AutoMag.Libtelnet.Told
import Mathlib.Data.List.TakeWhile

set_option autoImplicit false

namespace AutoMag.Libtelnet

open AutoMag.Machine

/-! ## 1. The loop over the buffer -/

/-- A byte that begins a name or a value. The loop stops at the next of them, so
it is also what ends one. -/
def isMarker (b : UInt8) : Prop := b = TELNET_MSSP_VAR ∨ b = TELNET_MSSP_VAL

/-- The entries that are counted and not filled in: one, if there is a VAL at
the very end. -/
def dangling (buffer : List UInt8) : ℕ := if buffer.getLast? = some TELNET_MSSP_VAL then 1 else 0

/-- One string of the buffer: it holds no VAL, and behind it is the end or a
marker. With that the loop can be followed string by string, without looking at
how it finds them. -/
theorem mssp_split (c : List UInt8) :
    let last := c.takeWhile (fun b => b ≠ TELNET_MSSP_VAR ∧ b ≠ TELNET_MSSP_VAL)
    c = last ++ c.drop last.length ∧ TELNET_MSSP_VAL ∉ last
      ∧ ∀ b rest, c.drop last.length = b :: rest → isMarker b := by
  intro last
  have hdrop : c.drop last.length
      = c.dropWhile (fun b => b ≠ TELNET_MSSP_VAR ∧ b ≠ TELNET_MSSP_VAL) := by
    conv_lhs => rw [← List.takeWhile_append_dropWhile (l := c)
      (p := fun b => decide (b ≠ TELNET_MSSP_VAR ∧ b ≠ TELNET_MSSP_VAL))]
    exact List.drop_left
  refine ⟨?_, fun hval => ?_, fun b rest hb => ?_⟩
  · rw [hdrop]
    exact List.takeWhile_append_dropWhile.symm
  · have hnot := List.mem_takeWhile_imp hval
    simp at hnot
  · rw [hdrop] at hb
    have hne : c.dropWhile (fun b => b ≠ TELNET_MSSP_VAR ∧ b ≠ TELNET_MSSP_VAL) ≠ [] := by
      rw [hb]
      exact List.cons_ne_nil b rest
    have hnot := List.head_dropWhile_not _ hne
    simp only [hb, List.head_cons] at hnot
    by_cases hvar : b = TELNET_MSSP_VAR
    · exact Or.inl hvar
    · exact Or.inr (by simpa [hvar] using hnot)

/-- What is behind a string decides how the buffer ends, and has all VALs but
the one the string may have begun with. The 0 is what the source reads as the
next marker at the end of the buffer; it is not used there. -/
theorem mssp_rest (next_type : UInt8) {last rest : List UInt8} (hlast : TELNET_MSSP_VAL ∉ last)
    (hne : last ++ rest ≠ []) :
    dangling (next_type :: (last ++ rest)) = dangling (rest.headD 0 :: rest.tail)
      ∧ (next_type :: (last ++ rest)).count TELNET_MSSP_VAL
        = (if next_type = TELNET_MSSP_VAL then 1 else 0)
          + (rest.headD 0 :: rest.tail).count TELNET_MSSP_VAL := by
  have hnone : last.count TELNET_MSSP_VAL = 0 := List.count_eq_zero.mpr hlast
  cases rest with
  | nil =>
      rw [List.append_nil] at hne ⊢
      have hend : (next_type :: last).getLast? ≠ some TELNET_MSSP_VAL := by
        rw [List.getLast?_cons, Option.some_inj.ne, List.getLast?_eq_getLast_of_ne_nil hne]
        exact fun h => hlast (h ▸ List.getLast_mem hne)
      have hzero : (0 : UInt8) ≠ TELNET_MSSP_VAL := by decide
      refine ⟨?_, ?_⟩
      · simp [dangling, hend, hzero]
      · simp [List.count_cons, hnone, hzero]
  | cons b rest =>
      refine ⟨?_, ?_⟩
      · simp [dangling, List.getLast?_cons, List.getLast?_append]
      · simp [List.count_cons, List.count_append, hnone]
        omega

section Step

variable (fuel : ℕ) (values : List Environ) {c : List UInt8} (hc : c ≠ [])
include hc

/-- A pass over a name: it is kept for the values that follow, and makes no
entry. -/
theorem mssp_values_name (var : Option (List UInt8)) :
    let last := c.takeWhile (fun b => b ≠ TELNET_MSSP_VAR ∧ b ≠ TELNET_MSSP_VAL)
    let rest := c.drop last.length
    mssp_values (fuel + 1) TELNET_MSSP_VAR var values c
      = mssp_values fuel (rest.headD 0) (some last) values rest.tail := by
  cases c with
  | nil => exact absurd rfl hc
  | cons b c => rfl

/-- A pass over a value: it makes an entry, under the name kept. -/
theorem mssp_values_value (name : List UInt8) :
    let last := c.takeWhile (fun b => b ≠ TELNET_MSSP_VAR ∧ b ≠ TELNET_MSSP_VAL)
    let rest := c.drop last.length
    mssp_values (fuel + 1) TELNET_MSSP_VAL (some name) values c
      = mssp_values fuel (rest.headD 0) (some name) (values ++ [⟨0, name, last⟩]) rest.tail := by
  cases c with
  | nil => exact absurd rfl hc
  | cons b c => rfl

end Step

/-- The end of the buffer: no more entries are made, also not for a VAL that was
read ahead. -/
theorem mssp_values_end (fuel : ℕ) (next_type : UInt8) (var : Option (List UInt8))
    (values : List Environ) :
    ∃ values', mssp_values fuel next_type var values [] = some values'
      ∧ values'.length + dangling [next_type]
        = values.length + [next_type].count TELNET_MSSP_VAL := by
  refine ⟨values, by cases fuel <;> rfl, ?_⟩
  by_cases hval : next_type = TELNET_MSSP_VAL <;> simp [dangling, hval]

/-- **The loop makes an entry for each VAL**, but for one at the very end. The
marker the loop has read ahead counts with the rest of the buffer; it needs a
name before it only if there is still something to read, and then a value has
had one since the first pass. -/
theorem mssp_values_length (fuel : ℕ) : ∀ (next_type : UInt8) (var : Option (List UInt8))
    (values : List Environ) {c : List UInt8}, c.length ≤ fuel →
    (c ≠ [] → isMarker next_type ∧ (next_type = TELNET_MSSP_VAL → var.isSome)) →
    ∃ values', mssp_values fuel next_type var values c = some values'
      ∧ values'.length + dangling (next_type :: c)
        = values.length + (next_type :: c).count TELNET_MSSP_VAL := by
  induction fuel with
  | zero =>
      intro next_type var values c hlen _
      rw [List.length_eq_zero_iff.mp (Nat.le_zero.mp hlen)]
      exact mssp_values_end 0 next_type var values
  | succ fuel ih =>
      intro next_type var values c hlen hnext
      by_cases hc : c = []
      · rw [hc]
        exact mssp_values_end _ next_type var values
      obtain ⟨hmarker, hvar⟩ := hnext hc
      obtain ⟨hsplit, hlast, hhead⟩ := mssp_split c
      -- the string up to the next marker, and what is behind it
      generalize hl : c.takeWhile (fun b => b ≠ TELNET_MSSP_VAR ∧ b ≠ TELNET_MSSP_VAL) = last at *
      generalize hr : c.drop last.length = rest at *
      obtain ⟨hdangling, hcount⟩ := mssp_rest next_type hlast (hsplit ▸ hc)
      have htail : rest.tail.length ≤ fuel := by
        have hlength := congrArg List.length hsplit
        rw [List.length_append] at hlength
        rw [List.length_tail]
        omega
      have hrest : ∀ var' : Option (List UInt8), var'.isSome → ∀ values',
          ∃ values'', mssp_values fuel (rest.headD 0) var' values' rest.tail = some values''
            ∧ values''.length + dangling (next_type :: c)
              = values'.length + (rest.headD 0 :: rest.tail).count TELNET_MSSP_VAL := by
        intro var' hvar' values'
        rw [hsplit, hdangling]
        refine ih _ var' values' htail fun htail => ⟨?_, fun _ => hvar'⟩
        cases rest with
        | nil => exact absurd rfl htail
        | cons b rest => exact hhead b rest rfl
      rw [← hsplit] at hcount
      rw [hcount]
      rcases hmarker with rfl | rfl
      · obtain ⟨values', hok, hlen'⟩ := hrest (some last) rfl values
        refine ⟨values', ?_, ?_⟩
        · rw [mssp_values_name fuel values hc var, hl, hr, hok]
        · rw [hlen', if_neg (by decide), Nat.zero_add]
      · obtain ⟨name, rfl⟩ := Option.isSome_iff_exists.mp (hvar rfl)
        obtain ⟨values', hok, hlen'⟩ := hrest (some name) rfl (values ++ [⟨0, name, last⟩])
        refine ⟨values', ?_, ?_⟩
        · rw [mssp_values_value fuel values hc name, hl, hr, hok]
        · rw [hlen', List.length_append, if_pos rfl, List.length_singleton, Nat.add_assoc]

/-- **The entries of an event**: as many as it says, but for the one left unset
when the buffer ends in VAL. Only a buffer that begins with a name makes an
event at all. -/
theorem mssp_telnet_set {buffer : List UInt8} {values : List Environ} {size : ℕ}
    (h : .MSSP values size ∈ mssp_telnet buffer) :
    values.length + dangling buffer = size ∧ buffer.head? = some TELNET_MSSP_VAR := by
  cases buffer with
  | nil => cases h
  | cons type c =>
      by_cases htype : type = TELNET_MSSP_VAR
      · subst htype
        obtain ⟨values', hok, hlen⟩ := mssp_values_length c.length TELNET_MSSP_VAR none []
          (Nat.le_refl c.length) fun _ => ⟨Or.inl rfl, by decide⟩
        simp only [mssp_telnet, ne_eq, not_true_eq_false, if_false, hok, List.mem_singleton,
          Event.MSSP.injEq] at h
        obtain ⟨rfl, rfl⟩ := h
        exact ⟨by simpa using hlen, rfl⟩
      · simp [mssp_telnet, htype] at h

/-! ## 2. The stream -/

/-- Every MSSP event here comes with the subnegotiation it was made of, which
the library reports beside it. So a condition on the bytes that were sent is one
on the events. -/
def Sourced (evs : List Event) : Prop :=
  ∀ values size, .MSSP values size ∈ evs →
    ∃ buffer, .SUBNEGOTIATION TELNET_TELOPT_MSSP buffer ∈ evs
      ∧ .MSSP values size ∈ mssp_telnet buffer

theorem Sourced.append {as bs : List Event} (ha : Sourced as) (hb : Sourced bs) :
    Sourced (as ++ bs) := by
  intro values size hmem
  rcases List.mem_append.mp hmem with hmem | hmem
  · obtain ⟨buffer, hsub, hev⟩ := ha values size hmem
    exact ⟨buffer, List.mem_append_left _ hsub, hev⟩
  · obtain ⟨buffer, hsub, hev⟩ := hb values size hmem
    exact ⟨buffer, List.mem_append_right _ hsub, hev⟩

/-- Events of another kind need no source: data, replies, and reports of other
options. -/
theorem sourced_none {evs : List Event} (h : ∀ values size, .MSSP values size ∉ evs) :
    Sourced evs :=
  fun values size hmem => absurd hmem (h values size)

/-- `_subnegotiate` is where it happens: the report of the buffer first, then
what it was read as. -/
theorem subnegotiate_sourced (t : Telnet) : Sourced (subnegotiate t).1 := by
  intro values size hmem
  have hmssp : t.sb_telopt = TELNET_TELOPT_MSSP ∧ .MSSP values size ∈ mssp_telnet t.buffer := by
    unfold subnegotiate zmp_telnet ttype_telnet environ_telnet at hmem
    simp only at hmem
    repeat' split at hmem
    all_goals simp_all
  exact ⟨t.buffer, by rw [← hmssp.1]; exact List.mem_cons_self .., hmssp.2⟩

/-- A byte put into the buffer raises a warning at most. -/
theorem buffer_byte_sourced (t : Telnet) (byte : UInt8) : Sourced (buffer_byte t byte).2.1 := by
  apply sourced_none
  unfold buffer_byte
  simp only
  repeat' split
  all_goals simp

/-- A command of one byte is reported, or an IAC passed on as data. -/
theorem iac_byte_sourced (t : Telnet) (byte : UInt8) : Sourced (iac_byte t byte).events := by
  apply sourced_none
  unfold iac_byte
  repeat' split
  all_goals simp

/-- A byte ends at most one subnegotiation, and in one state only; all others
raise no such event. -/
theorem process_byte_sourced (t : Telnet) (byte : UInt8) :
    Sourced (process_byte t byte).events := by
  cases hs : t.state <;> simp only [process_byte, hs]
  case DATA => split <;> exact sourced_none (by simp)
  case IAC => exact iac_byte_sourced t byte
  case SB => exact sourced_none (by simp)
  case SB_DATA =>
    unfold sb_data_byte
    simp only
    repeat' split
    · exact sourced_none (by simp)
    · exact sourced_none (by simp)
    · exact buffer_byte_sourced t byte
    · exact buffer_byte_sourced t byte
  case SB_DATA_IAC =>
    have hsub := subnegotiate_sourced t
    have hwarning : ∀ msg, Sourced [.WARNING msg] := fun msg => sourced_none (by simp)
    unfold sb_data_iac_byte
    simp only
    repeat' split
    · exact hsub
    · exact buffer_byte_sourced t _
    · exact buffer_byte_sourced t _
    · exact (hwarning _).append hsub
    · exact (hwarning _).append (hsub.append (iac_byte_sourced _ byte))
  all_goals
    apply sourced_none
    unfold negotiate negotiate_will negotiate_wont negotiate_do negotiate_dont
    simp only [hs]
    repeat' split
    all_goals simp [send_negotiate]

/-- Over a stream, by induction on its bytes. -/
theorem told_sourced (t : Telnet) (stream : List UInt8) : Sourced (told t stream) := by
  induction stream generalizing t with
  | nil => exact sourced_none (by simp [told])
  | cons b stream ih =>
      have hdata : Sourced (if t.state = .DATA ∧ b ≠ TELNET_IAC then [.DATA [b]] else []) := by
        apply sourced_none
        split <;> simp
      rw [told_cons]
      exact (hdata.append (process_byte_sourced t b)).append (ih _)

/-- The buffer of an MSSP subnegotiation. -/
def Event.mssp_buffer : Event → Option (List UInt8)
  | .SUBNEGOTIATION telopt buffer => if telopt = TELNET_TELOPT_MSSP then some buffer else none
  | _ => none

/-- No MSSP subnegotiation of the stream that begins as it should, with a name,
has a VAL at its very end. One that begins otherwise is only warned about. -/
def Valued (t : Telnet) (stream : List UInt8) : Prop :=
  ∀ buffer ∈ (told t stream).filterMap Event.mssp_buffer,
    buffer.head? = some TELNET_MSSP_VAR → buffer.getLast? ≠ some TELNET_MSSP_VAL

instance (t : Telnet) (stream : List UInt8) : Decidable (Valued t stream) :=
  inferInstanceAs (Decidable (∀ buffer ∈ _, _))

/-- **No entry is left unset** in what the application is told of such a stream.
Each table it is told of was read from a buffer of the stream, and none of these
ends in VAL. -/
theorem Valued.set {t : Telnet} {stream : List UInt8} (h : Valued t stream)
    {values : List Environ} {size : ℕ} (hmem : .MSSP values size ∈ told t stream) :
    values.length = size := by
  obtain ⟨buffer, hsub, hev⟩ := told_sourced t stream values size hmem
  obtain ⟨hlen, hhead⟩ := mssp_telnet_set hev
  have hlast := h buffer (List.mem_filterMap.mpr ⟨_, hsub, rfl⟩) hhead
  rw [← hlen, dangling, if_neg hlast, Nat.add_zero]

end AutoMag.Libtelnet
