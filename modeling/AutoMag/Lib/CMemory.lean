/-
`Lib/CMemory.lean` -- `char` arrays and the string functions that walk them.

Everything C does with a fixed `char a[n]` that this development needs: a write
at an offset, `strlen`, `strstr`. An array carries its length, so a write can
never change it. The two string functions take the *memory* from a pointer on,
a list that may run past the end of an array: C does not stop them there, they
stop at the first NUL, and the end of the list counts as one.
-/
import Mathlib.Data.List.Basic
import Mathlib.Data.List.Infix
import Mathlib.Tactic.Common

set_option autoImplicit false

namespace AutoMag.CMemory

/-! ## Fixed arrays -/

/-- `char a[n]`: exactly `n` bytes. -/
@[ext]
structure CArray (n : ℕ) where
  bytes : List UInt8
  size : bytes.length = n
deriving DecidableEq

/-- `char a[n]` with every byte `b`: what `bzero` and `memset` leave. -/
def CArray.fill (n : ℕ) (b : UInt8) : CArray n := ⟨List.replicate n b, List.length_replicate⟩

/-- Write `bs` at `off`; what would land past the end of the array is cut. -/
def CArray.write {n : ℕ} (a : CArray n) (off : ℕ) (bs : List UInt8) : CArray n where
  bytes := (a.bytes.take off ++ bs ++ a.bytes.drop (off + bs.length)).take n
  size := by
    have ha := a.size
    simp only [List.length_take, List.length_append, List.length_drop]
    omega

/-- A write of at most `n` bytes at the front: the bytes written, then what was
there before. The stale tail is the second half, and it is what a search of the
whole array still sees. -/
theorem CArray.write_zero_bytes {n : ℕ} (a : CArray n) (bs : List UInt8) (h : bs.length ≤ n) :
    (a.write 0 bs).bytes = bs ++ a.bytes.drop bs.length := by
  have ha := a.size
  simp only [CArray.write, List.take_zero, List.nil_append, Nat.zero_add]
  rw [List.take_of_length_le]
  simp only [List.length_append, List.length_drop]
  omega

/-- An in-range write, at any offset: what is before it and what is behind it
stays. -/
theorem CArray.write_bytes {n : ℕ} (a : CArray n) (off : ℕ) (bs : List UInt8)
    (h : off + bs.length ≤ n) :
    (a.write off bs).bytes = a.bytes.take off ++ bs ++ a.bytes.drop (off + bs.length) := by
  have ha := a.size
  simp only [CArray.write]
  rw [List.take_of_length_le]
  simp only [List.length_append, List.length_take, List.length_drop]
  omega

/-- A byte and then the bytes right behind it: one write. -/
theorem CArray.write_write {n : ℕ} (a : CArray n) (off : ℕ) (b : UInt8) (bs : List UInt8)
    (h : off + 1 + bs.length ≤ n) :
    (a.write off [b]).write (off + 1) bs = a.write off (b :: bs) := by
  have ha := a.size
  have hfirst : (a.write off [b]).bytes = a.bytes.take off ++ [b] ++ a.bytes.drop (off + 1) :=
    a.write_bytes off [b] (by simp; omega)
  -- the second write begins right behind the byte, so nothing of what it leaves is covered twice
  have hoff : (a.bytes.take off ++ [b]).length = off + 1 := by simp; omega
  ext1
  rw [CArray.write_bytes _ _ _ h, hfirst, a.write_bytes off (b :: bs) (by simp; omega),
    List.take_left' hoff, List.drop_append, hoff, List.drop_eq_nil_of_le (by omega), List.drop_drop]
  simp [Nat.add_assoc, Nat.add_comm 1]

/-- Three adjacent in-range writes from the front read back as one block. -/
theorem CArray.write_three_take {n : ℕ} (a : CArray n) (x y z : List UInt8)
    (h : x.length + y.length + z.length ≤ n) :
    ((((a.write 0 x).write x.length y).write (x.length + y.length) z).bytes).take
        (x.length + y.length + z.length) = x ++ y ++ z := by
  have ha := a.size
  have hx : (a.write 0 x).bytes = x ++ a.bytes.drop x.length := a.write_zero_bytes x (by omega)
  have hy : ((a.write 0 x).write x.length y).bytes
      = x ++ y ++ a.bytes.drop (x.length + y.length) := by
    rw [CArray.write_bytes _ _ _ (by omega), hx]
    simp [List.drop_append]
  rw [CArray.write_bytes _ _ _ (by omega), hy]
  have hxy : (x ++ y ++ a.bytes.drop (x.length + y.length)).take (x.length + y.length)
      = x ++ y := by
    rw [← List.length_append, List.take_left]
  rw [hxy, ← List.length_append, ← List.length_append, List.take_left]

/-- The bytes written to an array so far, counted from its front: `old`, and
then `bs` on top of them. -/
def overlay (bs old : List UInt8) : List UInt8 := bs ++ old.drop bs.length

/-- What has been written is what the array begins with: the new bytes, and what
was written before and is not covered by them. -/
theorem CArray.overlay_prefix {n : ℕ} (a : CArray n) (bs : List UInt8) {old : List UInt8}
    (h : old <+: a.bytes) (hbs : bs.length ≤ n) : overlay bs old <+: (a.write 0 bs).bytes := by
  rw [a.write_zero_bytes bs hbs, overlay]
  exact (List.prefix_append_right_inj bs).mpr (h.drop bs.length)

/-! ## `strlen` -/

/-- The bytes before the first NUL. -/
def strlen (mem : List UInt8) : ℕ := (mem.takeWhile (· ≠ 0)).length

theorem strlen_cons (b : UInt8) (mem : List UInt8) :
    strlen (b :: mem) = if b = 0 then 0 else strlen mem + 1 := by
  by_cases hb : b = 0
  · simp [strlen, hb]
  · simp [strlen, hb]

/-- `strlen` of a string just formatted: its text, when the text has no NUL. -/
theorem strlen_append_nul (text rest : List UInt8) (h : ∀ b ∈ text, b ≠ 0) :
    strlen (text ++ 0 :: rest) = text.length := by
  induction text with
  | nil => simp [strlen_cons]
  | cons b text ih =>
      have hb : b ≠ 0 := h b (List.mem_cons_self ..)
      rw [List.cons_append, strlen_cons, if_neg hb,
        ih (fun c hc => h c (List.mem_cons_of_mem _ hc)), List.length_cons]

/-- `strlen` stays inside the front part of a memory just when there is a NUL in
it. -/
theorem strlen_append_lt_iff (mem rest : List UInt8) :
    strlen (mem ++ rest) < mem.length ↔ 0 ∈ mem := by
  induction mem with
  | nil => simp
  | cons b mem ih =>
      rw [List.cons_append, strlen_cons]
      by_cases hb : b = 0
      · rw [if_pos hb, hb]
        simp
      · rw [if_neg hb, List.length_cons, Nat.add_lt_add_iff_right, ih, List.mem_cons]
        exact ⟨Or.inr, fun h => h.resolve_left (Ne.symm hb)⟩

/-! ## `strstr`

The search tries each position in turn and gives up at the first NUL, so what it
returns is the first occurrence among those that start before that NUL. -/

/-- Index of the first occurrence of `needle` in the C string at `mem`. -/
def strstr (needle : List UInt8) : List UInt8 → Option ℕ
  | [] => if needle = [] then some 0 else none
  | b :: rest =>
      if needle.isPrefixOf (b :: rest) then some 0
      else if b = 0 then none
      else (strstr needle rest).map (· + 1)

/-- A hit is an occurrence, and of the whole needle. -/
theorem strstr_some {needle mem : List UInt8} {i : ℕ} (h : strstr needle mem = some i) :
    needle <+: mem.drop i := by
  induction mem generalizing i with
  | nil =>
      simp only [strstr] at h
      split at h
      · next hn => rw [hn]; exact List.nil_prefix
      · cases h
  | cons b rest ih =>
      simp only [strstr] at h
      split at h
      · next hp =>
          cases h
          simpa using List.isPrefixOf_iff_prefix.mp hp
      · split at h
        · cases h
        -- the hit is in the rest, one place further on
        · obtain ⟨j, hj, rfl⟩ := Option.map_eq_some_iff.mp h
          simpa using ih hj

/-- A string that begins with the needle is hit at once. -/
theorem strstr_eq_zero {needle mem : List UInt8} (h : needle <+: mem) :
    strstr needle mem = some 0 := by
  cases mem with
  | nil => simp [strstr, List.prefix_nil.mp h]
  | cons b rest => rw [strstr, if_pos (List.isPrefixOf_iff_prefix.mpr h)]

/-- What lies past the first NUL does not reach the search: no hit in a
NUL-ended text is no hit in any memory that starts with it. -/
theorem strstr_append_nul {c : UInt8} {cs text rest : List UInt8} (hc : c ∉ text) (h0 : c ≠ 0) :
    strstr (c :: cs) (text ++ 0 :: rest) = none := by
  induction text with
  | nil =>
      have hp : ¬ (c :: cs).isPrefixOf (0 :: rest) = true := by simp [List.isPrefixOf, h0]
      rw [List.nil_append, strstr, if_neg hp, if_pos rfl]
  | cons b text ih =>
      have hb : c ≠ b := fun e => hc (e ▸ List.mem_cons_self ..)
      have hp : ¬ (c :: cs).isPrefixOf (b :: (text ++ 0 :: rest)) = true := by
        simp [List.isPrefixOf, hb]
      rw [List.cons_append, strstr, if_neg hp, ih (fun hr => hc (List.mem_cons_of_mem _ hr))]
      simp

/-- A search that does not hit in a text without NUL has seen every place in
it. -/
theorem strstr_none_not_prefix {needle mem : List UInt8} (h : strstr needle mem = none)
    (h0 : 0 ∉ mem) (i : ℕ) : ¬ needle <+: mem.drop i := by
  induction mem generalizing i with
  | nil =>
      intro hp
      rw [List.drop_nil] at hp
      rw [strstr, if_pos (List.prefix_nil.mp hp)] at h
      cases h
  | cons b rest ih =>
      have hb : b ≠ 0 := fun e => h0 (e ▸ List.mem_cons_self ..)
      rw [strstr] at h
      split at h
      · cases h
      · next hp =>
          rw [Option.map_eq_none_iff] at h
          cases i with
          | zero => exact fun hp' => hp (List.isPrefixOf_iff_prefix.mpr hp')
          | succ i => exact ih h (fun h' => h0 (List.mem_cons_of_mem _ h')) i

/-- A hit in the front part of a memory is the hit, whatever lies behind: the
search takes the first one. -/
theorem strstr_append_some {needle mem : List UInt8} {i : ℕ} (h : strstr needle mem = some i)
    (hne : needle ≠ []) (rest : List UInt8) : strstr needle (mem ++ rest) = some i := by
  induction mem generalizing i with
  | nil =>
      rw [strstr, if_neg hne] at h
      cases h
  | cons b mem ih =>
      rw [strstr] at h
      rw [List.cons_append, strstr]
      split at h
      · next hp =>
          have hp' : needle <+: b :: (mem ++ rest) :=
            (List.isPrefixOf_iff_prefix.mp hp).trans (List.prefix_append (b :: mem) rest)
          rw [if_pos (List.isPrefixOf_iff_prefix.mpr hp')]
          exact h
      · next hp =>
          split at h
          · cases h
          · next hb =>
              obtain ⟨j, hj, rfl⟩ := Option.map_eq_some_iff.mp h
              -- an occurrence that begins here and ends behind the front part would come
              -- after the one at `j`, which is inside
              have hnot : ¬ needle.isPrefixOf (b :: (mem ++ rest)) = true := by
                intro hp'
                have hlen : needle.length ≤ mem.length := by
                  have hpre := (strstr_some hj).length_le
                  rw [List.length_drop] at hpre
                  omega
                have htake := List.prefix_of_prefix_length_le
                  (List.isPrefixOf_iff_prefix.mp hp') (List.prefix_append (b :: mem) rest)
                  (Nat.le_succ_of_le hlen)
                exact hp (List.isPrefixOf_iff_prefix.mpr htake)
              rw [if_neg hnot, if_neg hb, ih hj]
              rfl

/-- No hit in front of a NUL is no hit, for the search goes no further. -/
theorem strstr_append_none {needle mem : List UInt8} (h : strstr needle mem = none)
    (h0 : 0 ∈ mem) (hn : 0 ∉ needle) (rest : List UInt8) : strstr needle (mem ++ rest) = none := by
  induction mem with
  | nil => cases h0
  | cons b mem ih =>
      rw [strstr] at h
      rw [List.cons_append, strstr]
      split at h
      · cases h
      · next hp =>
          -- the needle has no NUL, so an occurrence ends before the one in `mem`
          have hnot : ¬ needle.isPrefixOf (b :: (mem ++ rest)) = true := by
            intro hp'
            have hpre := List.isPrefixOf_iff_prefix.mp hp'
            rcases List.prefix_or_prefix_of_prefix hpre (List.prefix_append (b :: mem) rest) with
              hin | hout
            · exact hp (List.isPrefixOf_iff_prefix.mpr hin)
            · exact hn (hout.subset h0)
          rw [if_neg hnot]
          by_cases hb : b = 0
          · rw [if_pos hb]
          · rw [if_neg hb, Option.map_eq_none_iff] at h
            rw [if_neg hb, ih h ((List.mem_cons.mp h0).resolve_left (Ne.symm hb))]
            rfl

/-- The last byte `strstr` looks at: the end of the occurrence, or the NUL. -/
def strstr_last (needle mem : List UInt8) : ℕ :=
  match strstr needle mem with
  | some i => i + needle.length - 1
  | none => strlen mem

/-- The search stays inside the front part of a memory just when it ends there,
with a hit or at a NUL. -/
theorem strstr_last_lt_iff {needle : List UInt8} (hne : needle ≠ []) (hn : 0 ∉ needle)
    (mem rest : List UInt8) :
    strstr_last needle (mem ++ rest) < mem.length ↔ strstr needle mem ≠ none ∨ 0 ∈ mem := by
  have hpos := List.length_pos_of_ne_nil hne
  cases hhit : strstr needle mem with
  | some i =>
      have hlen := (strstr_some hhit).length_le
      rw [List.length_drop] at hlen
      have hlast : strstr_last needle (mem ++ rest) = i + needle.length - 1 := by
        rw [strstr_last, strstr_append_some hhit hne]
      rw [hlast]
      exact iff_of_true (by omega) (Or.inl nofun)
  | none =>
      by_cases h0 : 0 ∈ mem
      · rw [strstr_last, strstr_append_none hhit h0 hn]
        exact iff_of_true ((strlen_append_lt_iff mem rest).mpr h0) (Or.inr h0)
      · refine iff_of_false ?_ (by simp [h0])
        rw [strstr_last]
        split
        · next i hi =>
            -- a hit at `i` that ended inside would be one of `mem`
            intro hlt
            apply strstr_none_not_prefix hhit h0 i
            have hpre := strstr_some hi
            rw [List.drop_append_of_le_length (by omega)] at hpre
            apply List.prefix_of_prefix_length_le hpre (List.prefix_append ..)
            rw [List.length_drop]
            omega
        · exact fun hlt => h0 ((strlen_append_lt_iff mem rest).mp hlt)

end AutoMag.CMemory
