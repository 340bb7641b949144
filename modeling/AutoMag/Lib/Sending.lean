/-
`Lib/Sending.lean` -- a buffer written by calls that may take only a part of it.

A program that writes to a socket calls `send()` in a loop: each call takes some bytes off the
front of what is left, or none, or fails. The network is a parameter, what each call returns
when it is asked for so many bytes; what the program does about a failure is a parameter of
the loop. On a connection that works the parts do not show (`write_flows`).
-/
import Mathlib.Data.List.Basic

set_option autoImplicit false

namespace AutoMag.Sending

variable {ε ρ : Type}

/-- What a call returned: how many bytes it took, or an error. -/
inductive Sent (ε : Type) where
  | sent (rs : ℕ)
  | error (errno : ε)
deriving DecidableEq

/-- The network of one socket: what the `k`-th call returns when it is asked for
`size` bytes. -/
abbrev Net (ε : Type) : Type := ℕ → ℕ → Sent ε

/-- A socket as it is written: the calls made, and the bytes taken. -/
structure Socket where
  calls : ℕ := 0
  wire : List UInt8 := []
deriving DecidableEq

/-- A call that took `rs` bytes of `buffer`. -/
def Socket.took (s : Socket) (buffer : List UInt8) (rs : ℕ) : Socket :=
  ⟨s.calls + 1, s.wire ++ buffer.take rs⟩

/-- The loop over what is left of the buffer. It is left with everything written
(`done`), after a call that failed (`failed`), or after one that took nothing
(`stuck`). -/
def write (net : Net ε) (done : Socket → ρ) (failed : Socket → ε → ρ) (stuck : Socket → ρ)
    (s : Socket) (buffer : List UInt8) : ρ :=
  if buffer = [] then done s
  else match net s.calls buffer.length with
    | .error errno => failed (s.took buffer 0) errno
    | .sent 0 => stuck (s.took buffer 0)
    | .sent (rs + 1) =>
        write net done failed stuck (s.took buffer (rs + 1)) (buffer.drop (rs + 1))
termination_by buffer.length
decreasing_by
  have hpos := List.length_pos_of_ne_nil ‹_›
  rw [List.length_drop]
  omega

/-- The network of a working connection: a call takes at least a byte and at
most what it is given. -/
def Flows (net : Net ε) : Prop :=
  ∀ k size, 0 < size → ∃ rs, net k size = .sent rs ∧ 1 ≤ rs ∧ rs ≤ size

/-- **Partial writes do not show**: the whole buffer goes out, in order,
whatever the program does about failures, since there are none. -/
theorem write_flows {net : Net ε} (hnet : Flows net) (done : Socket → ρ) (failed : Socket → ε → ρ)
    (stuck : Socket → ρ) (s : Socket) (buffer : List UInt8) :
    ∃ s', write net done failed stuck s buffer = done s' ∧ s'.wire = s.wire ++ buffer := by
  -- along the recursion of the loop: each round takes a part off the front
  fun_induction write net done failed stuck s buffer with
  | case1 s => exact ⟨s, rfl, (List.append_nil _).symm⟩
  | case2 s buffer hne errno herr =>
      obtain ⟨rs, hrs, -⟩ := hnet s.calls buffer.length (List.length_pos_of_ne_nil hne)
      rw [hrs] at herr
      cases herr
  | case3 s buffer hne hzero =>
      obtain ⟨rs, hrs, hpos, -⟩ := hnet s.calls buffer.length (List.length_pos_of_ne_nil hne)
      rw [hrs] at hzero
      cases hzero
      omega
  | case4 s buffer hne rs hrs ih =>
      obtain ⟨s', hdone, hwire⟩ := ih
      refine ⟨s', hdone, ?_⟩
      rw [hwire, Socket.took, List.append_assoc, List.take_append_drop]

end AutoMag.Sending
