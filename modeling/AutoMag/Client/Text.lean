/-
`Client/Text.lean` -- typed text that is no menu key.

The condition of the stdin branch reads `rs = read(...) > 0`, which makes `rs` 1,
and both the default case of the menu and the trailing `_input` send `rs` bytes of
`buffer`. So a read is forwarded as its first byte, twice. `text_forwarded_iff`
compares that with what was typed, over whole runs.
-/
import AutoMag.Client.Menu

set_option autoImplicit false

namespace AutoMag.Client

open AutoMag.CMemory AutoMag.Libtelnet AutoMag.Machine

/-- Everything read from stdin. -/
def read_bytes (tr : List Act) : List UInt8 :=
  tr.flatMap fun | .read r => r.bytes | _ => []

@[simp] theorem read_bytes_append (as bs : List Act) :
    read_bytes (as ++ bs) = read_bytes as ++ read_bytes bs := List.flatMap_append ..

/-- What the stdin branch has sent is what was typed, each CR or LF made CR
LF. -/
def Forwarded (s : Main) : Prop :=
  sent .stdin s.session.trace = (read_bytes s.session.trace).flatMap crlf

/-- Text the menu does not take for a key: no NUL in it, not beginning with `l`,
`s` or `q`. -/
def Chunk.IsText (c : Chunk) : Prop :=
  0 ∉ c.bytes ∧ c.key ≠ chr 'l' ∧ c.key ≠ chr 's' ∧ c.key ≠ chr 'q'

/-- Two bytes that `_input` translates alike. -/
def Chunk.Doubled (c : Chunk) : Prop := ∃ b b', c.bytes = [b, b'] ∧ crlf b' = crlf b

/-! ## One read -/

/-- A translated text is one translated byte only if it is one byte: no byte is
translated to nothing. -/
theorem flatMap_crlf_eq {b : UInt8} {bs : List UInt8} :
    bs.flatMap crlf = crlf b ↔ ∃ b', bs = [b'] ∧ crlf b' = crlf b := by
  constructor
  · intro h
    match bs with
    | [] =>
        simp only [crlf, List.flatMap_nil] at h
        split at h <;> cases h
    | [b'] => exact ⟨b', rfl, by simpa using h⟩
    | b₁ :: b₂ :: bs =>
        -- too long, unless `b` stands for CR LF; and then `b₁` would be a bare CR
        have h₁ : crlf b₁ ++ (crlf b₂ ++ bs.flatMap crlf) = crlf b := by simpa using h
        have hCR : crlf CR = [CR, LF] := rfl
        unfold crlf at h₁ hCR
        split at h₁ <;> split at h₁ <;> split at h₁ <;> simp_all
  · rintro ⟨b', rfl, h⟩
    simpa using h

/-- What is sent for a read is the first byte twice; it is the read if that has
two bytes, translated alike. -/
theorem Chunk.doubled_iff (c : Chunk) :
    crlf c.key ++ crlf c.key = c.bytes.flatMap crlf ↔ c.Doubled := by
  have hbytes : c.bytes.flatMap crlf = crlf c.key ++ c.bytes.tail.flatMap crlf := by
    conv_lhs => rw [c.bytes_eq, List.flatMap_cons]
  rw [hbytes, List.append_cancel_left_eq, eq_comm, flatMap_crlf_eq]
  constructor
  · rintro ⟨b', htail, h⟩
    exact ⟨c.key, b', by rw [c.bytes_eq, htail], h⟩
  · rintro ⟨b, b', hb, h⟩
    have hkey : c.key = b := by simp [Chunk.key, hb]
    exact ⟨b', by simp [hb], by rw [hkey, h]⟩

theorem Chunk.IsText.key_ne_zero {c : Chunk} (h : c.IsText) : c.key ≠ 0 :=
  fun h0 => h.1 (h0 ▸ List.head_mem c.nonempty)

/-- What a read of text adds to both sides: the first byte twice on the one, and
all of it on the other. -/
theorem text_acts_views (e : Bool) (key : UInt8) :
    sent .stdin (text_acts e key) = crlf key ++ crlf key ∧ read_bytes (text_acts e key) = []
      ∧ ∀ r, .read r ∉ text_acts e key := by
  have hread : ∀ r, .read r ∉ text_acts e key := by
    intro r hr
    simp only [text_acts, List.mem_append, List.mem_singleton, reduceCtorEq, or_false] at hr
    rcases hr with (hr | hr) | hr
    · simp [menu_prompts] at hr
    · rcases mem_input_acts hr with ⟨_, h⟩ | ⟨_, h⟩ | ⟨_, h⟩ | ⟨_, h⟩ <;> cases h
    · rcases mem_input_acts hr with ⟨_, h⟩ | ⟨_, h⟩ | ⟨_, h⟩ | ⟨_, h⟩ <;> cases h
  refine ⟨?_, ?_, hread⟩
  · simp only [text_acts, sent_append, sent_input_acts]
    simp [menu_prompts, sent]
  · apply view_eq_nil
    intro a ha
    cases a with
    | read r => exact absurd ha (hread r)
    | _ => rfl

/-! ## A pass

Only the stdin branch moves either side. -/

theorem no_read_ofRecv {acts : List Act} (h : ∀ a ∈ acts, a.ofRecv) (r : Result) :
    .read r ∉ acts := fun hr => by cases h _ hr

theorem no_read_ofCan {acts : List Act} (h : ∀ a ∈ acts, a.ofCan) (r : Result) :
    .read r ∉ acts := fun hr => by cases h _ hr

theorem read_bytes_eq_nil {acts : List Act} (h : ∀ r, .read r ∉ acts) : read_bytes acts = [] :=
  view_eq_nil fun a ha => by
    cases a with
    | read r => exact absurd ha (h r)
    | _ => rfl

/-- What happens to the two sides: nothing, or one read of text. -/
inductive TextStep (s s' : Main) : Prop
  | quiet (acts : List Act) (htr : s'.session.trace = s.session.trace ++ acts)
      (hsent : sent .stdin acts = []) (hread : ∀ c, .read (.data c) ∉ acts)
      (hbytes : read_bytes acts = [])
  | text (c : Chunk) (acts : List Act)
      (htr : s'.session.trace = s.session.trace ++ .read (.data c) :: acts)
      (hsent : sent .stdin acts = crlf c.key ++ crlf c.key) (hread : ∀ r, .read r ∉ acts)
      (hbytes : read_bytes acts = [])

/-- More that is quiet, after a step. -/
theorem TextStep.append {s s' s'' : Main} (h : TextStep s s') {acts : List Act}
    (htr : s''.session.trace = s'.session.trace ++ acts) (hsent : sent .stdin acts = [])
    (hread : ∀ r, .read r ∉ acts) : TextStep s s'' := by
  have hbytes := read_bytes_eq_nil hread
  cases h with
  | quiet as htr' hsent' hread' hbytes' =>
      refine .quiet (as ++ acts) ?_ ?_ ?_ ?_
      · rw [htr, htr', List.append_assoc]
      · rw [sent_append, hsent', hsent, List.append_nil]
      · intro c hc
        rcases List.mem_append.mp hc with hc | hc
        · exact hread' c hc
        · exact hread _ hc
      · rw [read_bytes_append, hbytes', hbytes, List.append_nil]
  | text c as htr' hsent' hread' hbytes' =>
      refine .text c (as ++ acts) ?_ ?_ ?_ ?_
      · rw [htr, htr', List.append_assoc, List.cons_append]
      · rw [sent_append, hsent', hsent, List.append_nil]
      · intro r hr
        rcases List.mem_append.mp hr with hr | hr
        · exact hread' r hr
        · exact hread _ hr
      · rw [read_bytes_append, hbytes', hbytes, List.append_nil]

/-- Only text is to come. -/
def TextOnly (s : Main) : Prop := ∀ c, .data c ∈ s.stdin → c.IsText

theorem StdinStep.text_step {term : List UInt8} {s s' : Main} (h : StdinStep term s s')
    (ht : TextOnly s) : TextOnly s' ∧ TextStep s s' := by
  cases h with
  | idle => exact ⟨ht, .quiet [] (by simp) rfl (by simp) rfl⟩
  | failed => exact ⟨ht, .quiet [.telnet_free, .close] rfl rfl (by simp) rfl⟩
  | @branch r q past hs hq =>
      have hrest : ∀ c, .data c ∈ q → c.IsText :=
        fun c hc => ht c (by rw [hq]; exact List.mem_cons_of_mem _ hc)
      -- end of file or an error: the loop is left and nothing was typed
      have hend : (∀ c, r ≠ .data c) → TextOnly (stdin_branch term past s)
          ∧ TextStep s (stdin_branch term past s) := by
        intro hr
        rw [stdin_branch_end term past hq hr]
        refine ⟨hrest, .quiet [.read r, .telnet_free, .close] ?_ rfl ?_ ?_⟩
        · simp [Main.leave, Main.halt]
        · intro c hc
          simp at hc
          exact hr c hc.symm
        · cases r with
          | data c => exact absurd rfl (hr c)
          | _ => rfl
      cases r with
      | eof => exact hend (by simp)
      | error errno => exact hend (by simp)
      | data c =>
          have hc : c.IsText := ht c (by rw [hq]; exact List.mem_cons_self ..)
          obtain ⟨hsent, hbytes, hread⟩ := text_acts_views s.session.do_echo c.key
          rw [stdin_branch_text term past hq hc.key_ne_zero hc.2.1 hc.2.2.1 hc.2.2.2 hs]
          refine ⟨hrest, .text c (text_acts s.session.do_echo c.key) ?_ hsent hread hbytes⟩
          simp

/-- **One pass over text** is one step: a read, with what it sends, or nothing
at all. -/
theorem iteration_text (term : List UInt8) (s : Main) (p : Poll) (ht : TextOnly s) :
    TextOnly (iteration term s p) ∧ TextStep s (iteration term s p) := by
  obtain ⟨s₁, s₂, h₁, h₂, h₃⟩ := iteration_split term s p
  obtain ⟨ht₁, hstep₁⟩ := h₁.text_step ht
  have hs₂ : TextOnly s₂ ∧ TextStep s s₂ := by
    -- receiving neither reads nor sends for the stdin branch, and showing a message below
    -- does not either
    rcases h₂ with rfl | ⟨x, y, h₂⟩
    · exact ⟨ht₁, hstep₁⟩
    · obtain ⟨acts, htr, hof, _⟩ := h₂.trace
      refine ⟨?_, hstep₁.append htr (sent_ofRecv .stdin hof) (no_read_ofRecv hof)⟩
      unfold TextOnly
      rw [h₂.stdin]
      exact ht₁
  rcases h₃ with hs' | ⟨hrun, hs'⟩
  · rw [hs']
    exact hs₂
  · have hframe := show_message_frame term s₂ hrun
    obtain ⟨acts, htr, hof⟩ := hframe.trace
    rw [hs']
    refine ⟨?_, hs₂.2.append htr (sent_ofCan hof) (no_read_ofCan hof)⟩
    unfold TextOnly
    rw [hframe.stdin]
    exact hs₂.1

/-! ## Whole runs -/

/-- All reads so far have been doubled bytes. -/
def AllDoubled (s : Main) : Prop := ∀ c, .read (.data c) ∈ s.session.trace → c.Doubled

/-- A step of text that is doubled keeps the two sides equal, and no other
does. -/
theorem TextStep.forwarded_iff {s s' : Main} (h : TextStep s s') (hd : AllDoubled s)
    (hf : Forwarded s) : Forwarded s' ↔ AllDoubled s' := by
  cases h with
  | quiet acts htr hsent hread hbytes =>
      have hf' : Forwarded s' := by
        unfold Forwarded
        rw [htr, sent_append, read_bytes_append, hsent, hbytes, List.append_nil, List.append_nil]
        exact hf
      refine ⟨fun _ c hc => ?_, fun _ => hf'⟩
      rw [htr] at hc
      rcases List.mem_append.mp hc with hc | hc
      · exact hd c hc
      · exact absurd hc (hread c)
  | text c acts htr hsent hread hbytes =>
      -- up to here the two sides were equal, so the new parts decide: the key twice against
      -- the whole read
      have hf' : Forwarded s' ↔ c.Doubled := by
        have hb : read_bytes (.read (.data c) :: acts) = c.bytes ++ read_bytes acts := by
          simp [read_bytes, Result.bytes]
        have hs : sent .stdin (.read (.data c) :: acts) = sent .stdin acts := by simp [sent]
        unfold Forwarded at hf ⊢
        rw [htr, sent_append, read_bytes_append, hb, hs, hsent, hbytes, hf, List.append_nil,
          List.flatMap_append, List.append_cancel_left_eq, c.doubled_iff]
      rw [hf']
      constructor
      · intro hc c' hc'
        rw [htr] at hc'
        rcases List.mem_append.mp hc' with hc' | hc'
        · exact hd c' hc'
        · rcases List.mem_cons.mp hc' with hc' | hc'
          · cases hc'
            exact hc
          · exact absurd hc' (hread _)
      · intro hd'
        exact hd' c (by rw [htr]; simp)

theorem AllDoubled.before {term : List UInt8} {s : Main} {p : Poll}
    (h : AllDoubled (iteration term s p)) : AllDoubled s :=
  fun c hc => h c ((iteration_trace term s p).subset hc)

/-- **When typed text is forwarded.** What the stdin branch sends is what was
typed, after every pass of a run, if and only if every read of the run brought
two bytes that are translated alike. -/
theorem text_forwarded_iff (term : List UInt8) (b r d : CArray 512) (stdin : List Result)
    (scanfs : List (Option Int32)) (socket : List Result) (polls : List Poll)
    (htext : ∀ c, .data c ∈ stdin → c.IsText) :
    Along (iteration term) (fun s p => Forwarded (iteration term s p))
        (Main.start b r d stdin scanfs socket) polls
      ↔ ∀ c, .read (.data c)
          ∈ (main_loop term (Main.start b r d stdin scanfs socket) polls).session.trace →
        c.Doubled := by
  have hd : AllDoubled (Main.start b r d stdin scanfs socket) := by
    intro c hc
    cases hc
  have hf : Forwarded (Main.start b r d stdin scanfs socket) := rfl
  have ht : TextOnly (Main.start b r d stdin scanfs socket) := htext
  constructor
  · intro halong
    -- forwarded after every pass: then each read must have been doubled
    exact (run_invariant_along (iteration term) (I := fun s => TextOnly s ∧ AllDoubled s
        ∧ Forwarded s)
      (fun s p ⟨ht, hd, hf⟩ hf' => by
        obtain ⟨ht', hstep⟩ := iteration_text term s p ht
        exact ⟨ht', (hstep.forwarded_iff hd hf).mp hf', hf'⟩)
      ⟨ht, hd, hf⟩ polls halong).2.1
  -- doubled throughout: no read can break it once the last one has not
  · refine along_of_run (iteration term) (I := fun s => TextOnly s ∧ (AllDoubled s → Forwarded s))
      (P := AllDoubled) ?_ (fun s p => AllDoubled.before) ?_
      ⟨ht, fun _ => hf⟩ polls
    · rintro s p ⟨ht, hf⟩
      obtain ⟨ht', hstep⟩ := iteration_text term s p ht
      exact ⟨ht', fun hd' => (hstep.forwarded_iff hd'.before (hf hd'.before)).mpr hd'⟩
    · rintro s p ⟨ht, hf⟩ hd'
      obtain ⟨_, hstep⟩ := iteration_text term s p ht
      exact (hstep.forwarded_iff hd'.before (hf hd'.before)).mpr hd'

/-- A read of one byte that is no menu key. -/
def pressed_a : Result := .data ⟨[chr 'a'], by decide, by decide⟩

/-- An `a` typed once is sent twice. -/
theorem text_sent_twice :
    (∀ c, .data c ∈ [pressed_a] → c.IsText)
    ∧ ¬ Forwarded (main_loop []
      (Main.start (.fill 512 0) (.fill 512 0) (.fill 512 0) [pressed_a] [] [])
      [.ready true false [] []]) := by
  constructor
  · intro c hc
    cases List.mem_singleton.mp hc
    exact ⟨by decide, by decide, by decide, by decide⟩
  · unfold Forwarded
    decide +kernel

/-- `aa` in one read comes out right. -/
theorem text_forwarded_iff_aa :
    (∀ c, .data c ∈ [Result.data ⟨ascii "aa", by decide, by decide⟩] → c.IsText)
    ∧ Along (iteration []) (fun s p => Forwarded (iteration [] s p))
      (Main.start (.fill 512 0) (.fill 512 0) (.fill 512 0)
        [.data ⟨ascii "aa", by decide, by decide⟩] [] [])
      [.ready true false [] []] := by
  have htext : ∀ c, .data c ∈ [Result.data ⟨ascii "aa", by decide, by decide⟩] → c.IsText := by
    intro c hc
    cases List.mem_singleton.mp hc
    exact ⟨by decide, by decide, by decide, by decide⟩
  refine ⟨htext, (text_forwarded_iff [] _ _ _ _ _ _ _ htext).mpr ?_⟩
  have hreads : (main_loop [] (Main.start (.fill 512 0) (.fill 512 0) (.fill 512 0)
      [.data ⟨ascii "aa", by decide, by decide⟩] [] [])
      [.ready true false [] []]).session.trace.filter (fun a => a matches .read _)
      = [.read (.data ⟨ascii "aa", by decide, by decide⟩)] := by decide +kernel
  intro c hc
  have hmem := List.mem_filter (p := fun a => a matches .read _).mpr ⟨hc, rfl⟩
  rw [hreads] at hmem
  cases List.mem_singleton.mp hmem
  exact ⟨chr 'a', chr 'a', by decide, rfl⟩

end AutoMag.Client
