/-
`Libtelnet/Agreement.lean` -- what two ends can rely on.

Three facts about every run of two ends, whatever is asked for at either of them and in
whatever order the bytes arrive. When nothing is under way the ends agree about an option,
or one of them is still waiting. They agree just when no DO that was queued behind a DONT
has been dropped: `_negotiate` has a `case Q_WANTNO_OP` under WONT that goes to WANTYES
without sending the DO, unlike its counterpart under DONT, and what is lost there is not
made up for by any later request. And no negotiation goes on for ever: the commands the ends
act upon are at most twice the requests made.

The statements are for an option that `a` has and `b` sees at `a`; the ends are
interchangeable.
-/
import AutoMag.Libtelnet.Peers

set_option autoImplicit false

namespace AutoMag.Libtelnet

open AutoMag.Machine AutoMag.QMethod

namespace Peers

/-! ## 1. One step of a link -/

theorem swap_swap (s : Peers) : s.swap.swap = s := rfl

/-- What happens, as a move of the link of an option that `a` has. -/
def moveOf (s : Peers) (o : UInt8) (d : Bool × Deed) : Option Move :=
  if d.1 then s.ownMove o d.2 else s.swap.otherMove o d.2

section Step

variable {S : Finset UInt8} (hS : S.card < 64) {s : Peers} (h : s.Fit S) {d : Bool × Deed}
  (hd : d.2.Ok S)
include hS h hd

/-- Whatever either end does keeps the wires whole and the tables in order. -/
theorem step_fit : (s.step d).Fit S := by
  obtain ⟨at_a, d⟩ := d
  cases at_a with
  | true => exact (follows h hS hd).1
  | false => exact (follows h.swap hS hd).1.swap

/-- Seen on one link of an option a step is a move, or nothing. -/
theorem step_link (o : UInt8) : ∃ acceptsUs acceptsHim,
    (s.step d).link o = moved acceptsUs acceptsHim (s.link o) (s.moveOf o d) := by
  obtain ⟨at_a, d⟩ := d
  cases at_a with
  | true => exact ⟨_, _, ((follows h hS hd).2 o).1⟩
  | false => exact ⟨_, _, ((follows h.swap hS hd).2 o).2⟩

/-- And so it is on the other link, with the ends exchanged. -/
theorem step_link_swap (o : UInt8) : ∃ acceptsUs acceptsHim,
    (s.step d).swap.link o = moved acceptsUs acceptsHim (s.swap.link o)
      (s.swap.moveOf o (!d.1, d.2)) := by
  obtain ⟨at_a, d⟩ := d
  cases at_a with
  | true => exact ⟨_, _, ((follows h hS hd).2 o).2⟩
  | false => exact ⟨_, _, ((follows h.swap hS hd).2 o).1⟩

end Step

/-! ## 2. The dropped request -/

/-- A WONT for the option is completed at `b`, which has a DO queued for it. -/
def Drops (o : UInt8) (s : Peers) (d : Bool × Deed) : Prop :=
  d.1 = false ∧ s.heard d = [(.WONT, o)] ∧ Q_HIM (get_rfc1143 s.b o) = Q_WANTNO_OP

theorem decoded_wantno_op (q : UInt8) : decoded q = .WANTNO_OP ↔ q = Q_WANTNO_OP := by
  unfold decoded
  split_ifs <;> simp_all <;> decide

/-- It is the move that drops a request of the link. The condition is on the
table and the byte that arrives, so it can be checked on a run of the
program. -/
theorem drops_iff (o : UInt8) (s : Peers) (d : Bool × Deed) :
    s.Drops o d ↔ ∃ mv, s.moveOf o d = some mv ∧ (s.link o).Drops false mv := by
  have hhim : (s.link o).him = .WANTNO_OP ↔ Q_HIM (get_rfc1143 s.b o) = Q_WANTNO_OP :=
    decoded_wantno_op _
  obtain ⟨at_a, d⟩ := d
  constructor
  · rintro ⟨rfl, hheard, hq⟩
    cases d with
    | arrive =>
        cases hab : s.ab with
        | nil => simp [heard, completes, swap, hab] at hheard
        | cons byte ab =>
            simp only [heard, completes, swap, hab] at hheard
            by_cases hverb : s.b.state.isVerb
            · simp only [hverb, if_true, Bool.false_eq_true, if_false, List.cons.injEq,
                Prod.mk.injEq, and_true] at hheard
              obtain ⟨hst, rfl⟩ := hheard
              refine ⟨.hearHim, ?_, ?_⟩
              · simp [moveOf, otherMove, swap, hab, hst]
              · have hup : (s.link byte).up.head? = some false := by
                  rw [link, hab, commands_cons, if_pos hverb, hst]
                  simp [ups]
                simp [Link.Drops, hup, hhim.mpr hq]
            · simp [hverb] at hheard
    | _ => simp [heard, completes] at hheard
  · rintro ⟨mv, hmove, hdrops⟩
    simp only [Link.Drops, Bool.and_eq_true, decide_eq_true_eq, Bool.not_false, and_true] at hdrops
    obtain ⟨⟨rfl, hup⟩, hwant⟩ := hdrops
    cases at_a with
    | true =>
        -- nothing done at `a` is an arrival at `b`
        cases d with
        | ask cmd telopt =>
            simp only [moveOf, ownMove, if_true] at hmove
            repeat' split at hmove
            all_goals simp at hmove
        | call c => simp [moveOf, ownMove] at hmove
        | arrive =>
            simp only [moveOf, ownMove, if_true] at hmove
            repeat' split at hmove
            all_goals simp at hmove
    | false =>
        cases d with
        | ask cmd telopt =>
            simp only [moveOf, otherMove, Bool.false_eq_true, if_false] at hmove
            repeat' split at hmove
            all_goals simp at hmove
        | call c => simp [moveOf, otherMove] at hmove
        | arrive =>
            cases hab : s.ab with
            | nil => simp [moveOf, otherMove, swap, hab] at hmove
            | cons byte ab =>
                simp only [moveOf, otherMove, swap, hab, Bool.false_eq_true, if_false] at hmove
                split at hmove
                · next hst =>
                    obtain ⟨rfl, hst | hst⟩ := hst
                    -- a WILL is "on", and what is dropped is an "off"
                    · rw [link, hab, commands_cons, hst] at hup
                      simp [ups, State.isVerb] at hup
                    · refine ⟨rfl, ?_, hhim.mp hwant⟩
                      simp [heard, completes, swap, hab, hst, State.isVerb]
                · cases hmove

/-! ## 3. Agreement -/

/-- The two ends hold the same of the option, and neither waits for an
answer. -/
def Agreed (o : UInt8) (s : Peers) : Prop :=
  (Q_US (get_rfc1143 s.a o) = Q_NO ∧ Q_HIM (get_rfc1143 s.b o) = Q_NO)
    ∨ (Q_US (get_rfc1143 s.a o) = Q_YES ∧ Q_HIM (get_rfc1143 s.b o) = Q_YES)

/-- An end waits for an answer. -/
def Waiting (o : UInt8) (s : Peers) : Prop :=
  (Q_US (get_rfc1143 s.a o) ≠ Q_NO ∧ Q_US (get_rfc1143 s.a o) ≠ Q_YES)
    ∨ (Q_HIM (get_rfc1143 s.b o) ≠ Q_NO ∧ Q_HIM (get_rfc1143 s.b o) ≠ Q_YES)

/-- Nothing under way, and the link regular: the two ends hold the same of the
option. -/
theorem agreed_of_regular {S : Finset UInt8} {s : Peers} (h : s.Fit S) {o : UInt8}
    (hl : (s.link o).Regular) (hab : s.ab = []) (hba : s.ba = []) : s.Agreed o := by
  have hup : (s.link o).up = [] := by rw [link, hab]; rfl
  have hdown : (s.link o).down = [] := by rw [link, hba]; rfl
  obtain ⟨on, hus, hhim⟩ := Link.Regular.rest hl hup hdown
  have hqus := h.left.ends.coded.q_us o
  have hqhim := h.right.ends.coded.q_him o
  have hus' : (halves s.a o).1 = .settled on := hus
  have hhim' : (halves s.b o).2 = .settled on := hhim
  rw [hus'] at hqus
  rw [hhim'] at hqhim
  cases on with
  | false => exact Or.inl ⟨hqus, hqhim⟩
  | true => exact Or.inr ⟨hqus, hqhim⟩

/-- A half that waits has none of the two settled codes. -/
theorem code_of_waits (half : Half) (h : half.waits) : code half ≠ Q_NO ∧ code half ≠ Q_YES := by
  revert half
  decide

/-- Nothing under way, and the request lost: an end waits for an answer that
nobody will send. -/
theorem waiting_of_lost {S : Finset UInt8} {s : Peers} (h : s.Fit S) {o : UInt8}
    (hl : (s.link o).Lost) (hab : s.ab = []) (hba : s.ba = []) : s.Waiting o := by
  have hup : (s.link o).up = [] := by rw [link, hab]; rfl
  have hdown : (s.link o).down = [] := by rw [link, hba]; rfl
  have hqus := h.left.ends.coded.q_us o
  have hqhim := h.right.ends.coded.q_him o
  unfold Waiting
  rw [hqus, hqhim]
  rcases Link.Lost.rest hl hup hdown with hw | hw
  · exact Or.inl (code_of_waits _ hw)
  · exact Or.inr (code_of_waits _ hw)

/-- An end that waits has not settled the option, so there is no agreement on
it. -/
theorem not_agreed_of_waiting {s : Peers} {o : UInt8} (h : s.Waiting o) : ¬ s.Agreed o := by
  rintro (⟨hus, hhim⟩ | ⟨hus, hhim⟩)
  · exact h.elim (fun hw => hw.1 hus) (fun hw => hw.1 hhim)
  · exact h.elim (fun hw => hw.2 hus) (fun hw => hw.2 hhim)

theorem fit_start (S : Finset UInt8) (telopts_a telopts_b : List Telopt) :
    (start telopts_a telopts_b).Fit S := by
  have hone : ∀ telopts, Receives S (telnet_init telopts 0) [] := fun telopts =>
    ⟨end_init S telopts, ⟨Nat.le_refl 0, List.mem_cons_self ..⟩, rfl, by intro c hc; cases hc⟩
  exact ⟨hone _, hone _⟩

/-- All links begin with both ends at NO and nothing under way. -/
theorem link_start (telopts_a telopts_b : List Telopt) (o : UInt8) :
    (start telopts_a telopts_b).link o = ⟨.NO, .NO, [], []⟩ := by
  have hno : ∀ telopts, halves (telnet_init telopts 0) o = (.NO, .NO) := by
    intro telopts
    have hhalves : halves (telnet_init telopts 0) o
        = (decoded (Q_US ⟨0, 0⟩), decoded (Q_HIM ⟨0, 0⟩)) := rfl
    rw [hhalves]
    decide
  simp only [link, start, hno]
  rfl

/-- A run is regular at its end, or has dropped a request and is lost. By
induction on what is done: a regular link stays so or drops a request, and a
lost one stays lost. -/
theorem run_regular_or_lost {S : Finset UInt8} (hS : S.card < 64)
    (telopts_a telopts_b : List Telopt)
    (ds : List (Bool × Deed)) (hds : ∀ d ∈ ds, d.2.Ok S) (o : UInt8) :
    (Along step (fun s d => ¬ s.Drops o d) (start telopts_a telopts_b) ds
        ∧ (run step (start telopts_a telopts_b) ds).Fit S
        ∧ ((run step (start telopts_a telopts_b) ds).link o).Regular)
      ∨ (¬ Along step (fun s d => ¬ s.Drops o d) (start telopts_a telopts_b) ds
        ∧ (run step (start telopts_a telopts_b) ds).Fit S
        ∧ ((run step (start telopts_a telopts_b) ds).link o).Lost) := by
  apply run_dichotomy step (I := fun s => s.Fit S ∧ (s.link o).Regular)
    (J := fun s => s.Fit S ∧ (s.link o).Lost) (P := fun d => d.2.Ok S) _ _ _ ds hds
    ⟨fit_start S telopts_a telopts_b, by rw [link_start]; rfl⟩
  · rintro s d hd ⟨hfit, hreg⟩ hkeep
    refine ⟨step_fit hS hfit hd, ?_⟩
    obtain ⟨acceptsUs, acceptsHim, hlink⟩ := step_link hS hfit hd o
    rw [hlink]
    cases hmove : s.moveOf o d with
    | none => exact hreg
    | some mv =>
        apply regular_step acceptsUs acceptsHim false hreg
        apply Bool.eq_false_iff.mpr
        intro hdrops
        exact hkeep ((drops_iff o s d).mpr ⟨mv, hmove, hdrops⟩)
  · rintro s d hd ⟨hfit, hreg⟩ hdrop
    refine ⟨step_fit hS hfit hd, ?_⟩
    obtain ⟨acceptsUs, acceptsHim, hlink⟩ := step_link hS hfit hd o
    obtain ⟨mv, hmove, hdrops⟩ := (drops_iff o s d).mp (not_not.mp hdrop)
    rw [hlink, hmove]
    exact lost_of_drops acceptsUs acceptsHim false hreg hdrops
  · rintro s d hd ⟨hfit, hlost⟩
    refine ⟨step_fit hS hfit hd, ?_⟩
    obtain ⟨acceptsUs, acceptsHim, hlink⟩ := step_link hS hfit hd o
    rw [hlink]
    cases s.moveOf o d with
    | none => exact hlost
    | some mv => exact lost_step acceptsUs acceptsHim false hlost mv

/-- **Two ends agree**, when nothing is under way, just when no queued DO has
been dropped on the way there; and if they do not, one of them is waiting. -/
theorem options_agree {S : Finset UInt8} (hS : S.card < 64) (telopts_a telopts_b : List Telopt)
    (ds : List (Bool × Deed)) (hds : ∀ d ∈ ds, d.2.Ok S) (o : UInt8)
    (hab : (run step (start telopts_a telopts_b) ds).ab = [])
    (hba : (run step (start telopts_a telopts_b) ds).ba = []) :
    ((run step (start telopts_a telopts_b) ds).Agreed o
        ↔ Along step (fun s d => ¬ s.Drops o d) (start telopts_a telopts_b) ds)
      ∧ (¬ (run step (start telopts_a telopts_b) ds).Agreed o
        → (run step (start telopts_a telopts_b) ds).Waiting o) := by
  rcases run_regular_or_lost hS telopts_a telopts_b ds hds o with
    ⟨halong, hfit, hreg⟩ | ⟨hnot, hfit, hlost⟩
  · have hagreed := agreed_of_regular hfit hreg hab hba
    exact ⟨⟨fun _ => halong, fun _ => hagreed⟩, fun hno => absurd hagreed hno⟩
  · have hwaiting := waiting_of_lost hfit hlost hab hba
    exact ⟨⟨fun ha => absurd ha (not_agreed_of_waiting hwaiting), fun ha => absurd ha hnot⟩,
      fun _ => hwaiting⟩

/-- Both ends support ECHO, and nothing else. -/
def echo : List Telopt := [⟨TELNET_TELOPT_ECHO, TELNET_WILL, TELNET_DO⟩]

/-- A command of three bytes arrives at `a` (`true`) or at `b`. -/
def arrivals (at_a : Bool) : List (Bool × Deed) := List.replicate 3 (at_a, .arrive)

/-- `b` asks for ECHO and gets it; it asks for its end and, before the answer,
for ECHO again. -/
def change_of_mind : List (Bool × Deed) :=
  (false, .ask TELNET_DO TELNET_TELOPT_ECHO) :: arrivals true ++ arrivals false
    ++ [(false, .ask TELNET_DONT TELNET_TELOPT_ECHO), (false, .ask TELNET_DO TELNET_TELOPT_ECHO)]
    ++ arrivals true ++ arrivals false

/-- `b` turns ECHO off and on again before the answer: the second request is
dropped, the ends do not agree, and one of them goes on waiting. -/
theorem options_agree_change_of_mind :
    let s := run step (start echo echo) change_of_mind
    (s.ab = [] ∧ s.ba = []) ∧ ¬ s.Agreed TELNET_TELOPT_ECHO ∧ s.Waiting TELNET_TELOPT_ECHO := by
  have hds : ∀ d ∈ change_of_mind, d.2.Ok {TELNET_TELOPT_ECHO} := by
    simp [change_of_mind, arrivals, Deed.Ok]
  have hab : (run step (start echo echo) change_of_mind).ab = [] := by decide +kernel
  have hba : (run step (start echo echo) change_of_mind).ba = [] := by decide +kernel
  have hnot : ¬ (run step (start echo echo) change_of_mind).Agreed TELNET_TELOPT_ECHO := by
    unfold Agreed
    decide +kernel
  exact ⟨⟨hab, hba⟩, hnot,
    (options_agree (by decide) echo echo change_of_mind hds TELNET_TELOPT_ECHO hab hba).2 hnot⟩

/-! ## 4. No negotiation without end -/

/-- A request about the option. -/
def asks (o : UInt8) : Deed → Bool
  | .ask _ telopt => telopt = o
  | _ => false

/-- The requests, and the arrivals, of a move or none. -/
def asked : Option Move → ℕ
  | none => 0
  | some mv => mv.asked

def hears (l : Link) : Option Move → ℕ
  | none => 0
  | some mv => l.heard mv

/-- What both links of an option may still cost. -/
def potential (o : UInt8) (s : Peers) : ℕ := (s.link o).potential + (s.swap.link o).potential

/-- The links of the option are such as occur. -/
structure Sound (S : Finset UInt8) (o : UInt8) (s : Peers) : Prop where
  fit : s.Fit S
  own : (s.link o).Regular ∨ (s.link o).Lost
  other : (s.swap.link o).Regular ∨ (s.swap.link o).Lost

/-- Regular or lost: there is no third thing a link can come to. -/
theorem moved_sound {l : Link} (h : l.Regular ∨ l.Lost) (acceptsUs acceptsHim : Bool)
    (mv : Option Move) :
    (moved acceptsUs acceptsHim l mv).Regular ∨ (moved acceptsUs acceptsHim l mv).Lost := by
  cases mv with
  | none => exact h
  | some mv =>
      rcases h with h | h
      · cases hdrops : l.Drops false mv with
        | true => exact Or.inr (lost_of_drops acceptsUs acceptsHim false h hdrops)
        | false => exact Or.inl (regular_step acceptsUs acceptsHim false h hdrops)
      · exact Or.inr (lost_step acceptsUs acceptsHim false h mv)

/-- The potential of a link pays for what arrives, and each request puts in
two. -/
theorem moved_potential {l : Link} (h : l.Regular ∨ l.Lost) (acceptsUs acceptsHim : Bool)
    (mv : Option Move) :
    (moved acceptsUs acceptsHim l mv).potential + hears l mv ≤ l.potential + 2 * asked mv := by
  cases mv with
  | none => exact Nat.le_refl _
  | some mv => exact potential_step acceptsUs acceptsHim false h mv

theorem step_sound {S : Finset UInt8} (hS : S.card < 64) {o : UInt8} {s : Peers} (h : s.Sound S o)
    {d : Bool × Deed} (hd : d.2.Ok S) : (s.step d).Sound S o := by
  obtain ⟨acceptsUs, acceptsHim, hown⟩ := step_link hS h.fit hd o
  obtain ⟨acceptsUs', acceptsHim', hother⟩ := step_link_swap hS h.fit hd o
  refine ⟨step_fit hS h.fit hd, ?_, ?_⟩
  · rw [hown]
    exact moved_sound h.own _ _ _
  · rw [hother]
    exact moved_sound h.other _ _ _

/-- A request is a move of one of the two links at most. -/
theorem asked_le (s : Peers) (o : UInt8) (d : Deed) :
    asked (s.ownMove o d) + asked (s.otherMove o d) ≤ if asks o d then 1 else 0 := by
  cases d with
  | ask cmd telopt =>
      by_cases ho : telopt = o
      · simp only [ownMove, otherMove, asks, ho, not_true_eq_false, if_false, decide_true,
          if_true, ne_eq]
        by_cases h1 : cmd = TELNET_WILL
        · subst h1
          decide
        · by_cases h2 : cmd = TELNET_WONT
          · subst h2
            decide
          · rw [if_neg h1, if_neg h2]
            split_ifs <;> simp [asked, Move.asked]
      · simp [ownMove, otherMove, asks, ho, asked]
  | call c => simp [ownMove, otherMove, asks, asked]
  | arrive =>
      simp only [ownMove, otherMove, asks]
      cases s.ba with
      | nil => simp [asked]
      | cons byte ba =>
          simp only
          split_ifs <;> simp [asked, Move.asked]

/-- A command that is completed is an arrival of one of the two links. It cannot
be of both, as the verb says whose half it is about. -/
theorem count_completes (s : Peers) (o : UInt8) (d : Deed) :
    (s.completes d).countP (·.2 = o)
      ≤ hears (s.link o) (s.ownMove o d) + hears (s.swap.link o) (s.otherMove o d) := by
  cases d with
  | arrive =>
      cases hba : s.ba with
      | nil => simp [completes, hba]
      | cons byte ba =>
          simp only [completes, hba]
          by_cases hverb : s.a.state.isVerb
          · by_cases ho : byte = o
            · subst ho
              have hcmds := commands_cons s.a byte ba
              rw [if_pos hverb] at hcmds
              -- the command is the first one of the list it belongs to
              cases hs : s.a.state <;> rw [hs] at hverb hcmds
              case WILL =>
                have hup : (s.swap.link byte).up
                    = true :: ups byte (commands (process_byte s.a byte).telnet ba) := by
                  rw [link, swap, hba, hcmds]
                  simp [ups]
                simp [otherMove, hba, hs, hears, Link.heard, hup, State.isVerb]
              case WONT =>
                have hup : (s.swap.link byte).up
                    = false :: ups byte (commands (process_byte s.a byte).telnet ba) := by
                  rw [link, swap, hba, hcmds]
                  simp [ups]
                simp [otherMove, hba, hs, hears, Link.heard, hup, State.isVerb]
              case DO =>
                have hdown : (s.link byte).down
                    = true :: downs byte (commands (process_byte s.a byte).telnet ba) := by
                  rw [link, hba, hcmds]
                  simp [downs]
                simp [ownMove, hba, hs, hears, Link.heard, hdown, State.isVerb]
              case DONT =>
                have hdown : (s.link byte).down
                    = false :: downs byte (commands (process_byte s.a byte).telnet ba) := by
                  rw [link, hba, hcmds]
                  simp [downs]
                simp [ownMove, hba, hs, hears, Link.heard, hdown, State.isVerb]
              all_goals cases hverb
            · rw [if_pos hverb]
              simp [ho]
          · rw [if_neg hverb]
            exact Nat.zero_le _
  | ask cmd telopt => exact Nat.zero_le _
  | call c => exact Nat.zero_le _

/-- **Every command acted upon is paid for by a request.** The potential is of
both links of the option; what one step asks for is counted once. -/
theorem step_potential {S : Finset UInt8} (hS : S.card < 64) {o : UInt8}
    {s : Peers} (h : s.Sound S o) {d : Bool × Deed} (hd : d.2.Ok S) :
    potential o (s.step d) + (s.heard d).countP (·.2 = o)
      ≤ potential o s + 2 * if asks o d.2 then 1 else 0 := by
  obtain ⟨acceptsUs, acceptsHim, hown⟩ := step_link hS h.fit hd o
  obtain ⟨acceptsUs', acceptsHim', hother⟩ := step_link_swap hS h.fit hd o
  have hpown := moved_potential h.own acceptsUs acceptsHim (s.moveOf o d)
  have hpother := moved_potential h.other acceptsUs' acceptsHim' (s.swap.moveOf o (!d.1, d.2))
  rw [← hown] at hpown
  rw [← hother] at hpother
  unfold potential
  obtain ⟨at_a, d⟩ := d
  cases at_a with
  | true =>
      have hcount := count_completes s o d
      have hask := asked_le s o d
      simp only [moveOf, if_true, Bool.not_true, Bool.false_eq_true, if_false, heard,
        swap_swap] at *
      omega
  | false =>
      have hcount := count_completes s.swap o d
      have hask := asked_le s.swap o d
      simp only [moveOf, if_true, Bool.not_false, Bool.false_eq_true, if_false, heard,
        swap_swap] at *
      omega

/-- The run, with the commands the ends act upon. -/
def acted (s : Peers) (d : Bool × Deed) : Peers × List (State × UInt8) := (s.step d, s.heard d)

theorem sum_price (o : UInt8) (ds : List (Bool × Deed)) :
    ds.foldr (fun d n => (2 * if asks o d.2 then 1 else 0) + n) 0
      = 2 * ds.countP fun d => asks o d.2 := by
  induction ds with
  | nil => rfl
  | cons d ds ih =>
      rw [List.foldr_cons, ih, List.countP_cons]
      omega

theorem sound_start (S : Finset UInt8) (telopts_a telopts_b : List Telopt) (o : UInt8) :
    (start telopts_a telopts_b).Sound S o := by
  refine ⟨fit_start S telopts_a telopts_b, Or.inl ?_, Or.inl ?_⟩
  · rw [link_start]
    rfl
  · change ((start telopts_b telopts_a).link o).Regular = true
    rw [link_start]
    rfl

/-- **Negotiation comes to an end**: the commands about an option that the two
ends act upon in a run are at most twice the requests made about it, and at most
two are under way each way for either of the ends. -/
theorem negotiation_bounded {S : Finset UInt8} (hS : S.card < 64)
    (telopts_a telopts_b : List Telopt)
    (ds : List (Bool × Deed)) (hds : ∀ d ∈ ds, d.2.Ok S) (o : UInt8) :
    (feed acted (start telopts_a telopts_b) ds).2.countP (·.2 = o)
        ≤ 2 * ds.countP (fun d => asks o d.2)
      ∧ (((feed acted (start telopts_a telopts_b) ds).1.link o).up.length ≤ 2
        ∧ ((feed acted (start telopts_a telopts_b) ds).1.link o).down.length ≤ 2)
      ∧ (((feed acted (start telopts_a telopts_b) ds).1.swap.link o).up.length ≤ 2
        ∧ ((feed acted (start telopts_a telopts_b) ds).1.swap.link o).down.length ≤ 2) := by
  have hstart := sound_start S telopts_a telopts_b o
  have hkeep : ∀ (s : Peers) (d : Bool × Deed), d.2.Ok S → s.Sound S o → (acted s d).1.Sound S o :=
    fun s d hd h => step_sound hS h hd
  have hcost :=
    feed_amortised acted (I := fun s => s.Sound S o) (P := fun d => d.2.Ok S) (potential o)
    (fun c => decide (c.2 = o)) (fun d => 2 * if asks o d.2 then 1 else 0) hkeep
    (fun s d hd h => step_potential hS h hd) ds hds hstart
  have hzero : potential o (start telopts_a telopts_b) = 0 := by
    unfold potential
    rw [link_start]
    change Link.potential _ + ((start telopts_b telopts_a).link o).potential = 0
    rw [link_start]
    rfl
  rw [sum_price, hzero] at hcost
  have hend : (feed acted (start telopts_a telopts_b) ds).1.Sound S o := by
    clear hcost hzero
    generalize start telopts_a telopts_b = s at hstart
    induction ds generalizing s with
    | nil => exact hstart
    | cons d ds ih =>
        exact ih (fun d' hd' => hds d' (List.mem_cons_of_mem _ hd')) _
          (hkeep s d (hds d (List.mem_cons_self ..)) hstart)
  exact ⟨by omega, length_le_two hend.own, length_le_two hend.other⟩

/-- The same run has four commands about ECHO, for three requests. -/
theorem negotiation_bounded_change_of_mind :
    (feed acted (start echo echo) change_of_mind).2.countP (·.2 = TELNET_TELOPT_ECHO) = 4
      ∧ (feed acted (start echo echo) change_of_mind).2.countP (·.2 = TELNET_TELOPT_ECHO)
        ≤ 2 * change_of_mind.countP (fun d => asks TELNET_TELOPT_ECHO d.2) := by
  have hds : ∀ d ∈ change_of_mind, d.2.Ok {TELNET_TELOPT_ECHO} := by
    simp [change_of_mind, arrivals, Deed.Ok]
  exact ⟨by decide +kernel, (negotiation_bounded (by decide) echo echo change_of_mind hds _).1⟩

end Peers

end AutoMag.Libtelnet
