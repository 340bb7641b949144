/-
`Lib/Lines.lean` -- lines of a byte stream that ends its lines with CR LF.

`lines` cuts at each CR LF, ignores the blanks in front of a line and forgets the
empty ones. Two facts carry all uses: a text that ends a line splits off
(`lines_append`), and cutting loses no byte that is neither a blank nor a CR or LF
(`weights_lines`).
-/
import Mathlib.Data.List.Basic
import Mathlib.Tactic.Common

set_option autoImplicit false

namespace AutoMag.Lines

/-- The lines of a text, `cur` being what the first one begins with. -/
def lines_from (cur : List UInt8) : List UInt8 → List (List UInt8)
  | [] => [cur]
  | [b] => [cur ++ [b]]
  | b :: b' :: rest =>
      if b = 13 ∧ b' = 10 then cur :: lines_from [] rest
      else lines_from (cur ++ [b]) (b' :: rest)

/-- The lines with something on them, without the blanks in front. -/
def lines (text : List UInt8) : List (List UInt8) :=
  ((lines_from [] text).map fun l => l.dropWhile (· = 32)).filter (· ≠ [])

/-- With a line begun: it ends where the text up to the break ends, and the rest
starts afresh. -/
theorem lines_from_append (cur a b : List UInt8) :
    lines_from cur (a ++ 13 :: 10 :: b) = lines_from cur a ++ lines_from [] b := by
  induction cur, a using lines_from.induct with
  | case1 cur => simp [lines_from]
  | case2 cur c =>
      -- a bare CR before the line end does not pair with it
      simp [lines_from]
  | case3 cur c c' rest hc ih =>
      rw [List.cons_append, List.cons_append, lines_from, if_pos hc, ih, lines_from, if_pos hc,
        List.cons_append]
  | case4 cur c c' rest hc ih =>
      rw [List.cons_append, List.cons_append, lines_from, if_neg hc, ← List.cons_append, ih,
        lines_from, if_neg hc]

/-- **A finished line splits off.** Everything that is sent line by line is
counted with this. -/
theorem lines_append (a b : List UInt8) :
    lines (a ++ 13 :: 10 :: b) = lines a ++ lines b := by
  simp only [lines, lines_from_append, List.map_append, List.filter_append]

/-- A text that splits off whatever follows it is its own lines: take nothing to
follow. -/
theorem lines_eq_of_append {text : List UInt8} {ls : List (List UInt8)}
    (h : ∀ rest, lines (text ++ rest) = ls ++ lines rest) : lines text = ls := by
  have hnil : lines [] = [] := rfl
  have hend := h []
  rwa [List.append_nil, hnil, List.append_nil] at hend

/-! ## What cutting keeps -/

/-- The number of bytes that are neither blanks nor CR or LF. -/
def weight (text : List UInt8) : ℕ := text.countP fun b => b ≠ 13 ∧ b ≠ 10 ∧ b ≠ 32

/-- The same over several lines. -/
def weights (ls : List (List UInt8)) : ℕ := weight ls.flatten

@[simp] theorem weight_append (a b : List UInt8) : weight (a ++ b) = weight a + weight b :=
  List.countP_append

@[simp] theorem weights_append (as bs : List (List UInt8)) :
    weights (as ++ bs) = weights as + weights bs := by
  rw [weights, List.flatten_append, weight_append]
  rfl

theorem weights_cons (l : List UInt8) (ls : List (List UInt8)) :
    weights (l :: ls) = weight l + weights ls := by
  rw [weights, List.flatten_cons, weight_append]
  rfl

/-- Cutting moves bytes from the text to the lines and drops the breaks, which
weigh nothing. -/
theorem weights_lines_from (cur text : List UInt8) :
    weights (lines_from cur text) = weight cur + weight text := by
  induction cur, text using lines_from.induct with
  | case1 cur => simp [lines_from, weights, weight]
  | case2 cur b => simp [lines_from, weights]
  | case3 cur b b' rest hb ih =>
      -- the CR LF itself weighs nothing
      have h : weight (b :: b' :: rest) = weight rest := by simp [weight, hb.1, hb.2]
      rw [lines_from, if_pos hb, weights_cons, ih, h]
      simp [weight]
  | case4 cur b b' rest hb ih =>
      have h : weight (b :: b' :: rest) = weight [b] + weight (b' :: rest) :=
        weight_append [b] (b' :: rest)
      rw [lines_from, if_neg hb, ih, h, weight_append]
      omega

/-- Spaces weigh nothing, so leading ones may go. -/
theorem weight_dropWhile (l : List UInt8) : weight (l.dropWhile (· = 32)) = weight l := by
  induction l with
  | nil => rfl
  | cons b l ih =>
      by_cases hb : b = 32
      · rw [List.dropWhile_cons_of_pos (by simpa using hb), ih, hb]
        simp [weight]
      · rw [List.dropWhile_cons_of_neg (by simpa using hb)]

/-- And neither do empty lines. -/
theorem weights_filter (ls : List (List UInt8)) : weights (ls.filter (· ≠ [])) = weights ls := by
  induction ls with
  | nil => rfl
  | cons l ls ih =>
      by_cases hl : l = []
      · rw [List.filter_cons_of_neg (by simpa using hl), ih, weights_cons, hl]
        simp [weight]
      · rw [List.filter_cons_of_pos (by simpa using hl), weights_cons, weights_cons, ih]

/-- **No byte of weight is lost.** With this a text that is cut into other lines
than it should be is known to have the same bytes in them. -/
theorem weights_lines (text : List UInt8) : weights (lines text) = weight text := by
  have hmap : ∀ ls : List (List UInt8),
      weights (ls.map fun l => l.dropWhile (· = 32)) = weights ls := by
    intro ls
    induction ls with
    | nil => rfl
    | cons l ls ih => rw [List.map_cons, weights_cons, weights_cons, ih, weight_dropWhile]
  rw [lines, weights_filter, hmap, weights_lines_from]
  simp [weight]

end AutoMag.Lines
