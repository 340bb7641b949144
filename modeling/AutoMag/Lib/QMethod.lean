/-
`Lib/QMethod.lean` -- one option, in one direction, between two ends.

The Q method keeps six states on each end: the option is off, on, or an answer
is awaited, and behind the awaited answer the opposite request may be queued. A
*link* is the two ends of one direction with the commands under way both ways,
`true` for "on" (WILL, DO) and `false` for "off" (WONT, DONT). Its moves are
requests at either end and arrivals, in any order.

Nothing here is about a program: whether an end accepts an option it is asked
for, and whether it sends the queued request when its turn comes, are parameters.
With the second one `true` the links that can occur are the `Regular` ones, in
which every awaited answer has exactly one command under way for it. With it
`false` an arrival can use up a command and leave the end waiting; the links after
that are `Lost`, and stay so.
-/
import Mathlib.Data.Fintype.Defs
import Mathlib.Tactic.Common

set_option autoImplicit false

namespace AutoMag.QMethod

/-! ## 1. One end -/

/-- What an end holds of an option, in one direction. -/
inductive Half where
  | NO | YES | WANTNO | WANTYES | WANTNO_OP | WANTYES_OP
deriving DecidableEq, Repr

instance : Fintype Half where
  elems := ⟨[Half.NO, .YES, .WANTNO, .WANTYES, .WANTNO_OP, .WANTYES_OP], by decide⟩
  complete := by
    intro h
    cases h <;> decide

/-- The state of an end that has settled on this. -/
def Half.settled : Bool → Half
  | true => .YES
  | false => .NO

/-- An answer is awaited. -/
def Half.waits : Half → Bool
  | .NO | .YES => false
  | _ => true

/-- The last command sent asks for this, and its answer is awaited. -/
def Half.wants (on : Bool) : Half → Bool
  | .WANTYES | .WANTYES_OP => on
  | .WANTNO | .WANTNO_OP => !on
  | _ => false

/-- The opposite request is queued. -/
def Half.queues : Half → Bool
  | .WANTNO_OP | .WANTYES_OP => true
  | _ => false

/-- A request: the new state, and the command that goes out, if one does. -/
def Half.ask (on : Bool) : Half → Half × List Bool
  | .NO => if on then (.WANTYES, [true]) else (.NO, [])
  | .YES => if on then (.YES, []) else (.WANTNO, [false])
  | .WANTNO => if on then (.WANTNO_OP, []) else (.WANTNO, [])
  | .WANTYES => if on then (.WANTYES, []) else (.WANTYES_OP, [])
  | .WANTNO_OP => if on then (.WANTNO_OP, []) else (.WANTNO, [])
  | .WANTYES_OP => if on then (.WANTYES, []) else (.WANTYES_OP, [])

/-- An arrival: the new state, and the command that goes back, if one does.
`accepts`: an option that is off and asked for is switched on. `resends`: a
queued "on" goes out when the "off" before it has been answered. -/
def Half.hear (accepts resends on : Bool) : Half → Half × List Bool
  | .NO => if on then (if accepts then (.YES, [true]) else (.NO, [false])) else (.NO, [])
  | .YES => if on then (.YES, []) else (.NO, [false])
  | .WANTNO => (.NO, [])
  | .WANTYES => if on then (.YES, []) else (.NO, [])
  | .WANTNO_OP => if on then (.YES, []) else (.WANTYES, if resends then [true] else [])
  | .WANTYES_OP => if on then (.WANTNO, [false]) else (.NO, [])

/-! ## 2. The link -/

/-- The end that has the option, the end that sees it at the other, and the
commands under way from the one to the other and back, oldest first. -/
structure Link where
  us : Half
  him : Half
  up : List Bool
  down : List Bool
deriving DecidableEq, Repr

/-- A request at either end, or the arrival of the oldest command at either
end. -/
inductive Move where
  | askUs (on : Bool)
  | askHim (on : Bool)
  | hearUs
  | hearHim
deriving DecidableEq, Repr

section Moves

variable (acceptsUs acceptsHim resends : Bool)

/-- `us` sends what it has queued; whether `him` does is the parameter. -/
def step (l : Link) : Move → Link
  | .askUs on => { l with us := (l.us.ask on).1, up := l.up ++ (l.us.ask on).2 }
  | .askHim on => { l with him := (l.him.ask on).1, down := l.down ++ (l.him.ask on).2 }
  | .hearUs =>
      match l.down with
      | [] => l
      | on :: down =>
          let r := l.us.hear acceptsUs true on
          { l with us := r.1, up := l.up ++ r.2, down := down }
  | .hearHim =>
      match l.up with
      | [] => l
      | on :: up =>
          let r := l.him.hear acceptsHim resends on
          { l with him := r.1, down := l.down ++ r.2, up := up }

/-- The requests of a move. -/
def Move.asked : Move → ℕ
  | .askUs _ | .askHim _ => 1
  | .hearUs | .hearHim => 0

/-- The arrivals of a move. -/
def Link.heard (l : Link) : Move → ℕ
  | .askUs _ | .askHim _ => 0
  | .hearUs => l.down.length - l.down.tail.length
  | .hearHim => l.up.length - l.up.tail.length

/-! ## 3. The links that occur -/

/-- The answer to an end in state `h`: what it asked for, or a refusal. -/
def Half.answeredBy (h : Half) (on : Bool) : Bool := h.wants on || (!on && h.waits)

/-- Every awaited answer has its command: nothing under way between ends that
agree; one command that is a request, or the answer to one; two requests that
crossed; an answer with a new request behind it. -/
def Link.Regular (l : Link) : Bool :=
  match l.up, l.down with
  | [], [] => (l.us = .NO && l.him = .NO) || (l.us = .YES && l.him = .YES)
  | [on], [] =>
      (l.us.wants on && l.him = .settled !on) || (l.us = .settled on && l.him.answeredBy on)
  | [], [on] =>
      (l.him.wants on && l.us = .settled !on) || (l.him = .settled on && l.us.answeredBy on)
  | [m], [n] => m = n && l.us.wants m && l.him.wants m
  | [m, n], [] => m != n && l.us.wants n && l.him.answeredBy m
  | [], [m, n] => m != n && l.him.wants n && l.us.answeredBy m
  | _, _ => false

/-- One command short: an end awaits an answer that is not under way. -/
def Link.Lost (l : Link) : Bool :=
  match l.up, l.down with
  | [], [] =>
      (l.us = .NO && l.him.waits) || (l.us.waits && l.him = .NO)
        || (l.us.wants true && l.him = .YES) || (l.us = .YES && l.him.wants true)
  | [true], [] => l.us.wants true && l.him.waits
  | [false], [] => l.us.wants false && l.him.wants true
  | [], [true] => l.us.waits && l.him.wants true
  | [], [false] => l.us.waits && l.him.waits
  | _, _ => false

/-- The move uses up an "off" behind which `him` has queued an "on", and sends
nothing. -/
def Link.Drops (l : Link) (mv : Move) : Bool :=
  mv = .hearHim && l.up.head? = some false && l.him = .WANTNO_OP && !resends

/-- What the moves still to come can cost: each command under way, the answer to
each request that has not arrived, and both again for a queued request. -/
def Link.potential (l : Link) : ℕ :=
  l.up.length + l.down.length
    + (if l.us.waits && !l.up.isEmpty then 1 else 0)
    + (if l.him.waits && !l.down.isEmpty then 1 else 0)
    + (if l.us.queues then 2 else 0) + (if l.him.queues then 2 else 0)

/-! ## 4. What a move does to them

The ends have six states each and at most two commands are under way, so a move is
checked on every link there is. The check is made once for each fact, over the shapes
that `Regular` and `Lost` admit. -/

/-- The shapes, for given ends and commands. -/
def shapes (us him : Half) (m n : Bool) : List Link :=
  [⟨us, him, [], []⟩, ⟨us, him, [m], []⟩, ⟨us, him, [], [m]⟩, ⟨us, him, [m], [n]⟩,
    ⟨us, him, [m, n], []⟩, ⟨us, him, [], [m, n]⟩]

/-- The links that occur are finitely many up to their two states and what is
under way, so a property of one move can be checked on all of them. -/
theorem shape_of_under_way {l : Link} (h : l.Regular ∨ l.Lost) :
    ∃ m n, l ∈ shapes l.us l.him m n := by
  obtain ⟨us, him, up, down⟩ := l
  match up, down, h with
  | [], [], _ => exact ⟨false, false, by simp [shapes]⟩
  | [m], [], _ => exact ⟨m, false, by simp [shapes]⟩
  | [], [m], _ => exact ⟨m, false, by simp [shapes]⟩
  | [m], [n], _ => exact ⟨m, n, by simp [shapes]⟩
  | [m, n], [], _ => exact ⟨m, n, by simp [shapes]⟩
  | [], [m, n], _ => exact ⟨m, n, by simp [shapes]⟩
  -- anything longer is in neither
  | [_], _ :: _ :: _, h => simp [Link.Regular, Link.Lost] at h
  | _ :: _ :: _ :: _, [], h => simp [Link.Regular, Link.Lost] at h
  | [], _ :: _ :: _ :: _, h => simp [Link.Regular, Link.Lost] at h
  | _ :: _ :: _, _ :: _, h => simp [Link.Regular, Link.Lost] at h

/-- Every move, with every value of the parameters it looks at. -/
def trials : List (Bool × Bool × Bool × Move) :=
  [(false, false, false, .askUs false), (false, false, false, .askUs true),
    (false, false, false, .askHim false), (false, false, false, .askHim true),
    (false, false, false, .hearUs), (true, false, false, .hearUs),
    (false, false, false, .hearHim), (false, true, false, .hearHim),
    (false, false, true, .hearHim), (false, true, true, .hearHim)]

/-- A move is one of them. Whether an end accepts is not known to the link, so
both answers are tried. -/
theorem trial_of_move (l : Link) (mv : Move) : ∃ c ∈ trials, c.2.2.2 = mv
    ∧ step c.1 c.2.1 c.2.2.1 l mv = step acceptsUs acceptsHim resends l mv
    ∧ l.Drops c.2.2.1 mv = l.Drops resends mv := by
  cases mv with
  | askUs on =>
    exact ⟨(false, false, false, .askUs on), by cases on <;> simp [trials], rfl, rfl, rfl⟩
  | askHim on =>
    exact ⟨(false, false, false, .askHim on), by cases on <;> simp [trials], rfl, rfl, rfl⟩
  | hearUs =>
      refine ⟨(acceptsUs, false, false, .hearUs), ?_, rfl, rfl, rfl⟩
      cases acceptsUs <;> simp [trials]
  | hearHim =>
      refine ⟨(false, acceptsHim, resends, .hearHim), ?_, rfl, rfl, rfl⟩
      cases acceptsHim <;> cases resends <;> simp [trials]

private theorem check_regular : ∀ (us him : Half) (m n : Bool), ∀ l ∈ shapes us him m n,
    l.Regular → ∀ c ∈ trials,
      if l.Drops c.2.2.1 c.2.2.2 then (step c.1 c.2.1 c.2.2.1 l c.2.2.2).Lost
      else (step c.1 c.2.1 c.2.2.1 l c.2.2.2).Regular := by
  decide +kernel

private theorem check_lost : ∀ (us him : Half) (m n : Bool), ∀ l ∈ shapes us him m n,
    l.Lost → ∀ c ∈ trials, (step c.1 c.2.1 c.2.2.1 l c.2.2.2).Lost := by
  decide +kernel

private theorem check_potential : ∀ (us him : Half) (m n : Bool), ∀ l ∈ shapes us him m n,
    l.Regular ∨ l.Lost → ∀ c ∈ trials,
      (step c.1 c.2.1 c.2.2.1 l c.2.2.2).potential + l.heard c.2.2.2
        ≤ l.potential + 2 * c.2.2.2.asked := by
  decide +kernel

/-- A move from a regular link that drops nothing: an ask, an arrival, at either
end. -/
theorem regular_step {l : Link} (h : l.Regular) {mv : Move} (hmv : l.Drops resends mv = false) :
    (step acceptsUs acceptsHim resends l mv).Regular := by
  obtain ⟨m, n, hl⟩ := shape_of_under_way (Or.inl h)
  obtain ⟨c, hc, rfl, hstep, hdrops⟩ := trial_of_move acceptsUs acceptsHim resends l mv
  have hcheck := check_regular l.us l.him m n l hl h c hc
  rw [hdrops, hmv, hstep] at hcheck
  exact hcheck

/-- A move that drops a request. What the end has queued is forgotten, and the
other end will never hear of it. -/
theorem lost_of_drops {l : Link} (h : l.Regular) {mv : Move} (hmv : l.Drops resends mv) :
    (step acceptsUs acceptsHim resends l mv).Lost := by
  obtain ⟨m, n, hl⟩ := shape_of_under_way (Or.inl h)
  obtain ⟨c, hc, rfl, hstep, hdrops⟩ := trial_of_move acceptsUs acceptsHim resends l mv
  have hcheck := check_regular l.us l.him m n l hl h c hc
  rw [hdrops, hmv, hstep] at hcheck
  exact hcheck

/-- **What is lost stays lost**, whatever is asked for afterwards: an end that
waits sends no request, it queues it. -/
theorem lost_step {l : Link} (h : l.Lost) (mv : Move) :
    (step acceptsUs acceptsHim resends l mv).Lost := by
  obtain ⟨m, n, hl⟩ := shape_of_under_way (Or.inr h)
  obtain ⟨c, hc, rfl, hstep, _⟩ := trial_of_move acceptsUs acceptsHim resends l mv
  rw [← hstep]
  exact check_lost l.us l.him m n l hl h c hc

/-- **Every arrival is paid for by a request**, two for each. The potential
counts what is under way and the answers still to come. -/
theorem potential_step {l : Link} (h : l.Regular ∨ l.Lost) (mv : Move) :
    (step acceptsUs acceptsHim resends l mv).potential + l.heard mv
      ≤ l.potential + 2 * mv.asked := by
  obtain ⟨m, n, hl⟩ := shape_of_under_way h
  obtain ⟨c, hc, rfl, hstep, _⟩ := trial_of_move acceptsUs acceptsHim resends l mv
  rw [← hstep]
  exact check_potential l.us l.him m n l hl h c hc

end Moves

/-! ## 5. Nothing under way -/

/-- The ends of a regular link agree when nothing is under way, and both have
settled. -/
theorem Link.Regular.rest {l : Link} (h : l.Regular) (hup : l.up = []) (hdown : l.down = []) :
    ∃ on, l.us = .settled on ∧ l.him = .settled on := by
  simp only [Link.Regular, hup, hdown, Bool.or_eq_true, Bool.and_eq_true, decide_eq_true_eq] at h
  rcases h with ⟨hus, hhim⟩ | ⟨hus, hhim⟩
  · exact ⟨false, hus, hhim⟩
  · exact ⟨true, hus, hhim⟩

/-- An end of a lost link is waiting when nothing is under way: the answer it
waits for is not among the commands. -/
theorem Link.Lost.rest {l : Link} (h : l.Lost) (hup : l.up = []) (hdown : l.down = []) :
    l.us.waits ∨ l.him.waits := by
  obtain ⟨us, him, up, down⟩ := l
  subst hup hdown
  revert us him
  decide

/-- At most two commands are under way each way: an answer, and a request behind
it. -/
theorem length_le_two {l : Link} (h : l.Regular ∨ l.Lost) :
    l.up.length ≤ 2 ∧ l.down.length ≤ 2 := by
  obtain ⟨m, n, hl⟩ := shape_of_under_way h
  simp only [shapes, List.mem_cons, List.not_mem_nil, or_false] at hl
  rcases hl with h | h | h | h | h | h <;> rw [h] <;> simp

end AutoMag.QMethod
