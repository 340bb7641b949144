/-
`Libtelnet/Table.lean` -- the RFC 1143 table as what it stands for.

`_set_rfc1143` grows the table by four entries and uses the first of them, so the
array in memory is mostly blank entries, which look like entries for option 0. The
list `es` of entries in use says the same without the gaps: `Table t es` ties the
two together, and under it `_get_rfc1143` is a lookup and `_set_rfc1143` an update.
-/
import Mathlib.Data.List.Nodup
import AutoMag.Libtelnet.Negotiate

set_option autoImplicit false

namespace AutoMag.Libtelnet

/-! ## The entries in use -/

/-- A zeroed entry. -/
def blank : Rfc1143 := ⟨0, 0⟩

/-- Each entry in use, with the three blank ones behind it. -/
def rows (es : List Rfc1143) : List Rfc1143 := es.flatMap fun e => [e, blank, blank, blank]

theorem rows_cons (e : Rfc1143) (es : List Rfc1143) :
    rows (e :: es) = e :: blank :: blank :: blank :: rows es := rfl

/-- Each entry takes four elements of the array: `q_size` grows by 4 and the
entry is written to the first of them. -/
theorem rows_length (es : List Rfc1143) : (rows es).length = 4 * es.length := by
  induction es with
  | nil => rfl
  | cons e es ih =>
      rw [rows_cons]
      simp only [List.length_cons, ih]
      omega

/-- The entry for an option, or an empty one. -/
def lookup (es : List Rfc1143) (o : UInt8) : Rfc1143 :=
  (es.find? (·.telopt = o)).getD ⟨o, 0⟩

/-- A new state for an option: in its entry, or in a new one at the end. -/
def update (o state : UInt8) : List Rfc1143 → List Rfc1143
  | [] => [⟨o, state⟩]
  | e :: es => if e.telopt = o then ⟨o, state⟩ :: es else e :: update o state es

theorem lookup_cons (e : Rfc1143) (es : List Rfc1143) (o : UInt8) :
    lookup (e :: es) o = if e.telopt = o then e else lookup es o := by
  unfold lookup
  by_cases h : e.telopt = o
  · simp [h]
  · simp [h]

@[simp] theorem lookup_nil (o : UInt8) : lookup [] o = ⟨o, 0⟩ := rfl

/-- What is found after an update: the new state for this option, and what was
there for all others. -/
theorem lookup_update (o state : UInt8) (es : List Rfc1143) (o' : UInt8) :
    lookup (update o state es) o' = if o' = o then ⟨o, state⟩ else lookup es o' := by
  induction es with
  | nil =>
      rw [update, lookup_cons]
      by_cases h : o' = o
      · simp [h]
      · simp [h, Ne.symm h]
  | cons e es ih =>
      rw [update]
      split
      -- the entry is the one that is overwritten
      · next he =>
          rw [lookup_cons, lookup_cons, he]
          by_cases h : o' = o
          · simp [h]
          · simp [h, Ne.symm h]
      · next he =>
          rw [lookup_cons, ih, lookup_cons]
          by_cases h : o' = o
          · subst h
            simp [he]
          · simp [h]

theorem mem_update {o state : UInt8} {es : List Rfc1143} {e : Rfc1143}
    (h : e ∈ update o state es) : e = ⟨o, state⟩ ∨ e ∈ es := by
  induction es with
  | nil => exact Or.inl (List.mem_singleton.mp h)
  | cons e' es ih =>
      rw [update] at h
      split at h
      · rcases List.mem_cons.mp h with h | h
        · exact Or.inl h
        · exact Or.inr (List.mem_cons_of_mem _ h)
      · rcases List.mem_cons.mp h with rfl | h
        · exact Or.inr (List.mem_cons_self ..)
        · exact (ih h).imp id (List.mem_cons_of_mem _)

/-- What is found is an entry for the option, or the state the source returns
where there is none. -/
theorem lookup_mem (es : List Rfc1143) (o : UInt8) :
    lookup es o = ⟨o, 0⟩ ∨ (lookup es o ∈ es ∧ (lookup es o).telopt = o) := by
  induction es with
  | nil => exact Or.inl rfl
  | cons e es ih =>
      rw [lookup_cons]
      split
      · next h => exact Or.inr ⟨List.mem_cons_self .., h⟩
      · exact ih.imp id fun h => ⟨List.mem_cons_of_mem _ h.1, h.2⟩

/-- The options in use after an update: one more at most, and at the end. -/
theorem telopts_update (o state : UInt8) (es : List Rfc1143) :
    (update o state es).map Rfc1143.telopt
      = if o ∈ es.map Rfc1143.telopt then es.map Rfc1143.telopt
        else es.map Rfc1143.telopt ++ [o] := by
  induction es with
  | nil => rfl
  | cons e es ih =>
      rw [update]
      split
      · next h => simp [h]
      · next h =>
          have hne : o ≠ e.telopt := fun he => h he.symm
          simp only [List.map_cons, ih, List.mem_cons, hne, false_or]
          split <;> simp

/-- An option that was not in use gets an entry of its own. -/
theorem update_of_not_mem {o state : UInt8} {es : List Rfc1143}
    (ho : o ∉ es.map Rfc1143.telopt) : update o state es = es ++ [⟨o, state⟩] := by
  induction es with
  | nil => rfl
  | cons e es ih =>
      have hne : e.telopt ≠ o := fun he => ho (by simp [he])
      rw [update, if_neg hne, ih (fun hm => ho (List.mem_cons_of_mem _ hm)), List.cons_append]

theorem update_length (o state : UInt8) (es : List Rfc1143) :
    (update o state es).length
      = if o ∈ es.map Rfc1143.telopt then es.length else es.length + 1 := by
  have hmap := congrArg List.length (telopts_update o state es)
  rw [List.length_map] at hmap
  rw [hmap]
  split <;> simp

/-! ## The array -/

/-- The array of the tracker holds the entries `es`, each once. -/
structure Table (t : Telnet) (es : List Rfc1143) : Prop where
  q : t.q = rows es
  q_size : t.q_size.toNat = 4 * es.length
  nodup : (es.map Rfc1143.telopt).Nodup
  nonzero : ∀ e ∈ es, e.telopt ≠ 0

theorem Table.take {t : Telnet} {es : List Rfc1143} (h : Table t es) :
    t.q.take t.q_size.toNat = rows es := by
  rw [h.q, h.q_size, ← rows_length, List.take_length]

/-- Where the search through the array finds an option, and what writing there
does. Option 0 is left out, for the unused elements look like an entry for
it. -/
theorem rows_find {o : UInt8} (ho : o ≠ 0) (state : UInt8) (es : List Rfc1143) :
    (((rows es).findIdx? (·.telopt = o) = none ∧ o ∉ es.map Rfc1143.telopt)
      ∨ ∃ i, (rows es).findIdx? (·.telopt = o) = some i ∧ o ∈ es.map Rfc1143.telopt
        ∧ (rows es).modify i (fun e => { e with state := state }) = rows (update o state es)) := by
  have hb : blank.telopt ≠ o := fun h => ho h.symm
  induction es with
  | nil => exact Or.inl ⟨rfl, by simp⟩
  | cons e es ih =>
      -- the entry first, then three blank ones that `o` cannot match, then the other rows
      have hidx : (rows (e :: es)).findIdx? (·.telopt = o)
          = if e.telopt = o then some 0
            else ((rows es).findIdx? (·.telopt = o)).map (· + 4) := by
        rw [rows_cons]
        simp only [List.findIdx?_cons, decide_eq_true_eq, hb, if_false, Option.map_map]
        congr 1
      rw [hidx]
      by_cases he : e.telopt = o
      · refine Or.inr ⟨0, if_pos he, by simp [he], ?_⟩
        rw [update, if_pos he, rows_cons, rows_cons, List.modify_zero_cons, he]
      · rw [if_neg he]
        have hmem : o ∈ (e :: es).map Rfc1143.telopt ↔ o ∈ es.map Rfc1143.telopt := by
          rw [List.map_cons, List.mem_cons]
          exact ⟨fun h => h.resolve_left fun h => he h.symm, Or.inr⟩
        rw [hmem]
        -- a hit in the other rows is four places further on
        rcases ih with ⟨hnone, hno⟩ | ⟨i, hsome, hyes, hmod⟩
        · exact Or.inl ⟨by rw [hnone]; rfl, hno⟩
        · refine Or.inr ⟨i + 4, by rw [hsome]; rfl, hyes, ?_⟩
          rw [update, if_neg he, rows_cons, rows_cons]
          simp only [List.modify_succ_cons, hmod]

/-- The search of `_get_rfc1143` passes over the unused elements. -/
theorem find_rows {o : UInt8} (ho : o ≠ 0) (es : List Rfc1143) :
    (rows es).find? (·.telopt = o) = es.find? (·.telopt = o) := by
  have hb : blank.telopt ≠ o := fun h => ho h.symm
  induction es with
  | nil => rfl
  | cons e es ih =>
      rw [rows_cons]
      simp only [List.find?_cons, hb, decide_false, ih]

/-- **`_get_rfc1143` is a lookup.** For option 0 it finds an unused element,
whose state is the one of an option not in use. -/
theorem Table.get {t : Telnet} {es : List Rfc1143} (h : Table t es) (o : UInt8) :
    get_rfc1143 t o = lookup es o := by
  unfold get_rfc1143 lookup
  rw [h.take]
  by_cases ho : o = 0
  · -- option 0 may be found in a blank entry, which is an empty one all the same
    subst ho
    have hnone : es.find? (·.telopt = 0) = none := by
      simpa [List.find?_eq_none] using h.nonzero
    rw [hnone]
    cases es with
    | nil => rfl
    | cons e es =>
        have he : e.telopt ≠ 0 := h.nonzero e (List.mem_cons_self ..)
        rw [rows_cons]
        simp [he, blank]
  · rw [find_rows ho]

/-- **`_set_rfc1143` is an update**, while the 8-bit `q_size` has room. Behind
63 entries it wraps, and entries are forgotten. -/
theorem Table.set {t : Telnet} {es : List Rfc1143} (h : Table t es) {o : UInt8} (ho : o ≠ 0)
    (hlen : es.length < 63) (us him : UInt8) :
    Table (set_rfc1143 t o us him) (update o (Q_MAKE us him) es) := by
  have hnonzero : ∀ e ∈ update o (Q_MAKE us him) es, e.telopt ≠ 0 := by
    intro e he
    rcases mem_update he with rfl | he
    · exact ho
    · exact h.nonzero e he
  have hnodup : ((update o (Q_MAKE us him) es).map Rfc1143.telopt).Nodup := by
    rw [telopts_update]
    split
    · exact h.nodup
    · next hno => exact List.nodup_append.mpr ⟨h.nodup, by simp, by
        intro a ha b hb
        rw [List.mem_singleton.mp hb]
        exact fun hab => hno (hab ▸ ha)⟩
  unfold set_rfc1143
  rw [h.take]
  rcases rows_find ho (Q_MAKE us him) es with ⟨hnone, hno⟩ | ⟨i, hsome, hyes, hmod⟩
  -- not found: the table grows by four entries, and `q_size + 4` must not wrap
  · rw [hnone]
    refine ⟨?_, ?_, hnodup, hnonzero⟩
    · rw [update_of_not_mem hno]
      simp [rows, blank]
    · rw [update_length, if_neg hno]
      have hq := h.q_size
      simp only [UInt8.toNat_add]
      have h4 : (4 : UInt8).toNat = 4 := rfl
      omega
  -- found: the entry is overwritten in place
  · rw [hsome]
    refine ⟨?_, ?_, hnodup, hnonzero⟩
    · simp only [h.q, hmod]
    · rw [update_length, if_pos hyes]
      exact h.q_size

/-- No option has two entries, so what one search finds is what every other
finds. -/
theorem Table.filter_le {t : Telnet} {es : List Rfc1143} (h : Table t es) {o : UInt8}
    (ho : o ≠ 0) : (t.q.filter (·.telopt = o)).length ≤ 1 := by
  -- the blank entries do not count, since `o` is not 0
  have hrows : (rows es).filter (·.telopt = o) = es.filter (·.telopt = o) := by
    have hb : blank.telopt ≠ o := fun hb => ho hb.symm
    clear h
    induction es with
    | nil => rfl
    | cons e es ih =>
        rw [rows_cons]
        simp only [List.filter_cons, hb, decide_false, ih]
        rfl
  have hcount : (es.filter (·.telopt = o)).length = (es.map Rfc1143.telopt).count o := by
    rw [List.count, List.countP_map, List.countP_eq_length_filter]
    rfl
  rw [h.q, hrows, hcount]
  exact List.nodup_iff_count_le_one.mp h.nodup o

end AutoMag.Libtelnet
