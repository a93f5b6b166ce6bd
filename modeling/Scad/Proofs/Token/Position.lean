import Mathlib.Data.List.TakeWhile
import Scad.Proofs.Token.Partition

/-! Places are exact: they count the line feeds before them and the characters behind the last of
these. So the line that a finding is shown with is the one that it starts in, and the caret stands
below its place. -/
namespace Scad

def lastLine (cs : List Char) : List Char := (cs.reverse.takeWhile (· ≠ '\n')).reverse

def firstLine (cs : List Char) : List Char := cs.takeWhile (· ≠ '\n')

theorem lastLine_append (cs : List Char) (c : Char) :
    lastLine (cs ++ [c]) = if c = '\n' then [] else lastLine cs ++ [c] := by
  unfold lastLine
  rw [List.reverse_append, List.reverse_singleton, List.singleton_append, List.takeWhile_cons]
  by_cases hc : c = '\n' <;> simp [hc]

theorem lastLine_eq_self {cs : List Char} (h : '\n' ∉ cs) : lastLine cs = cs := by
  have hall : cs.reverse.takeWhile (· ≠ '\n') = cs.reverse := by
    rw [List.takeWhile_eq_self_iff]
    intro c hc
    simp only [ne_eq, decide_not, Bool.not_eq_eq_eq_not, Bool.not_true, decide_eq_false_iff_not]
    rintro rfl
    exact h (List.mem_reverse.1 hc)
  rw [lastLine, hall, List.reverse_reverse]

/-- Characters before a line feed do not belong to the last line. -/
theorem lastLine_cons {cs : List Char} (h : '\n' ∈ cs) (c : Char) :
    lastLine (c :: cs) = lastLine cs := by
  have hshort : (cs.reverse.takeWhile (· ≠ '\n')).length ≠ cs.reverse.length := by
    intro hlength
    have heq := (List.takeWhile_prefix (· ≠ '\n')).eq_of_length hlength
    have hno := List.takeWhile_eq_self_iff.1 heq '\n' (List.mem_reverse.2 h)
    simp at hno
  rw [lastLine, List.reverse_cons, List.takeWhile_append, if_neg hshort, lastLine]

/-- A line feed does not belong to the line behind it. -/
theorem lastLine_lineFeed (cs : List Char) : lastLine ('\n' :: cs) = lastLine cs := by
  induction cs using List.reverseRecOn with
  | nil => rfl
  | append_singleton cs c ih => rw [← List.cons_append, lastLine_append, lastLine_append, ih]

/-! ### Lines -/

theorem linesOf_cons (cs : List Char) : ∃ rest, linesOf cs = firstLine cs :: rest := by
  fun_induction linesOf cs with
  | case1 => exact ⟨[], rfl⟩
  | case2 cs ih => exact ⟨linesOf cs, by simp [firstLine]⟩
  | case3 c cs hc hnil ih =>
      obtain ⟨rest, hrest⟩ := ih
      rw [hnil] at hrest
      cases hrest
  | case4 c cs hc line rest hlines ih =>
      obtain ⟨rest', hrest⟩ := ih
      rw [hlines] at hrest
      obtain ⟨rfl, -⟩ := List.cons.inj hrest
      have hne : c ≠ '\n' := hc
      exact ⟨rest, by simp [firstLine, hne]⟩

/-- A character that is no line feed goes to the front of the first line. -/
theorem linesOf_cons_of_ne {c : Char} (hc : c ≠ '\n') {cs line : List Char}
    {rest : List (List Char)} (h : linesOf cs = line :: rest) :
    linesOf (c :: cs) = (c :: line) :: rest := by
  rw [linesOf, h]
  exact hc

/-- The line around a place of a text. -/
theorem getElem?_linesOf (before behind : List Char) :
    (linesOf (before ++ behind))[before.count '\n']? =
      some (lastLine before ++ firstLine behind) := by
  induction before with
  | nil =>
      obtain ⟨rest, hrest⟩ := linesOf_cons behind
      rw [List.nil_append, hrest]
      rfl
  | cons c before ih =>
      obtain ⟨rest, hrest⟩ := linesOf_cons (before ++ behind)
      by_cases hc : c = '\n'
      · subst hc
        rw [List.count_cons_self, List.cons_append, linesOf, List.getElem?_cons_succ, ih,
          lastLine_lineFeed]
      · rw [List.count_cons_of_ne hc, List.cons_append, linesOf_cons_of_ne hc hrest]
        by_cases hbefore : '\n' ∈ before
        · obtain ⟨k, hk⟩ := Nat.exists_eq_succ_of_ne_zero (List.count_pos_iff.2 hbefore).ne'
          rw [hrest, hk, List.getElem?_cons_succ] at ih
          rw [hk, List.getElem?_cons_succ, ih, lastLine_cons hbefore]
        · have hnone : '\n' ∉ c :: before := List.not_mem_cons_of_ne_of_not_mem (Ne.symm hc) hbefore
          rw [hrest, List.count_eq_zero_of_not_mem hbefore, lastLine_eq_self hbefore] at ih
          rw [List.count_eq_zero_of_not_mem hbefore, lastLine_eq_self hnone]
          exact congrArg (some ∘ List.cons c) (Option.some.inj ih)

namespace Position

/-- A place in a text, at the end of its first `offset` characters. -/
structure Exact (cs : List Char) (p : Position) : Prop where
  inside : 0 ≤ p.offset ∧ p.offset ≤ cs.length
  line : p.line = 1 + (cs.take p.offset.toNat).count '\n'
  column : p.column = 1 + (lastLine (cs.take p.offset.toNat)).length

theorem advanceAll_start (cs : List Char) :
    start.advanceAll cs = ⟨cs.length, 1 + cs.count '\n', 1 + (lastLine cs).length⟩ := by
  induction cs using List.reverseRecOn with
  | nil => rfl
  | append_singleton cs c ih =>
      rw [advanceAll_append, ih, lastLine_append]
      by_cases hc : c = '\n'
      · subst hc
        simp [advanceAll, advance, Int.add_assoc]
      · simp [advanceAll, advance, hc, Int.add_assoc]

theorem exact_advanceAll {cs before : List Char} (h : before <+: cs) :
    (start.advanceAll before).Exact cs := by
  obtain ⟨behind, rfl⟩ := h
  rw [advanceAll_start]
  refine ⟨⟨Int.natCast_nonneg _, ?_⟩, ?_, ?_⟩
  · simp only [List.length_append]
    omega
  · simp
  · simp

end Position

/-- A range between two places in a text. -/
structure Span.Exact (cs : List Char) (s : Span) : Prop where
  start : s.start.Exact cs
  stop : s.stop.Exact cs

/-- What is found stands between two places that the scanner came to. -/
theorem Tiled.span_eq {origin : String} {place stop : Position} {cs : List Char}
    {found : List Scanned} (h : Tiled origin place cs found stop) :
    ∀ x ∈ found, ∃ before written, before ++ written <+: cs ∧
      x.span = ⟨origin, place.advanceAll before, place.advanceAll (before ++ written)⟩ := by
  induction h with
  | done => exact fun x hx => absurd hx List.not_mem_nil
  | @found place gap written rest y found stop _ _ hspan _ _ ih =>
      intro x hx
      rcases List.mem_cons.1 hx with rfl | hx
      · exact ⟨gap, written, ⟨rest, List.append_assoc ..⟩, hspan⟩
      · obtain ⟨before, more, ⟨behind, hrest⟩, hx⟩ := ih x hx
        refine ⟨gap ++ written ++ before, more, ⟨behind, ?_⟩, ?_⟩
        · rw [← hrest]
          simp only [List.append_assoc]
        · rw [hx, ← Position.advanceAll_append, ← Position.advanceAll_append, ← List.append_assoc]

/-- What the scanner finds stands in the order of the text, before the end of it. -/
theorem Tiled.rising {origin : String} {place stop : Position} {cs : List Char}
    {found : List Scanned} (h : Tiled origin place cs found stop) :
    found.Pairwise (·.span.start.offset < ·.span.start.offset) ∧
      ∀ x ∈ found, place.offset ≤ x.span.start.offset ∧ x.span.start.offset < stop.offset := by
  refine ⟨h.disjoint.imp_of_mem fun {x y} hx _ hxy => ?_, fun x hx => ?_⟩
  · exact Int.lt_of_lt_of_le (h.bounds x hx).2 hxy
  · obtain ⟨before, written, hprefix, hspan⟩ := h.span_eq x hx
    have hlength := hprefix.length_le
    have hbounds := h.bounds x hx
    rw [h.stop_eq]
    rw [hspan] at hbounds ⊢
    simp only [Position.offset_advanceAll] at hbounds ⊢
    omega

theorem exact_scanFrom (origin : String) (cs : List Char) :
    (∀ x ∈ (scanFrom origin none .start cs).1, x.span.Exact cs) ∧
      (scanFrom origin none .start cs).2.Exact cs := by
  have htiled := tiled_scanFrom origin none .start cs
  refine ⟨fun x hx => ?_, ?_⟩
  · obtain ⟨before, written, hprefix, hspan⟩ := htiled.span_eq x hx
    rw [hspan]
    exact ⟨Position.exact_advanceAll ((List.prefix_append ..).trans hprefix),
      Position.exact_advanceAll hprefix⟩
  · rw [htiled.stop_eq]
    exact Position.exact_advanceAll (List.prefix_refl cs)

theorem exact_tokens (source origin : String) :
    ∀ t ∈ (tokenize source origin).tokens, t.span.Exact source.toList := by
  obtain ⟨hfound, hstop⟩ := exact_scanFrom origin source.toList
  intro t ht
  rcases List.mem_append.1 ht with ht | ht
  · obtain ⟨x, hx, hxt⟩ := List.mem_filterMap.1 ht
    rw [← Scanned.span_of_token? hxt]
    exact hfound x hx
  · obtain rfl := List.mem_singleton.1 ht
    exact ⟨hstop, hstop⟩

theorem exact_faults (source origin : String) :
    ∀ d ∈ (tokenize source origin).faults, d.span.Exact source.toList := by
  intro d hd
  obtain ⟨x, hx, hxd⟩ := List.mem_filterMap.1 hd
  rw [← Scanned.span_of_fault? hxd]
  exact (exact_scanFrom origin source.toList).1 x hx

namespace Diagnostic

def before (d : Diagnostic) (source : String) : List Char :=
  source.toList.take d.span.start.offset.toNat

def behind (d : Diagnostic) (source : String) : List Char :=
  source.toList.drop d.span.start.offset.toNat

/-- A finding is shown with the line around its place, and the caret stands as far to the right as
what is on the line before the place is wide. Line and column need no care. -/
structure Pointed (d : Diagnostic) (source : String) : Prop where
  line : 1 ≤ d.span.start.line ∧ d.span.start.line ≤ (linesOf source.toList).length
  shown : d.lineIn source = some (lastLine (d.before source) ++ firstLine (d.behind source))
  column : 0 ≤ d.span.start.column - 1 ∧
    d.span.start.column - 1 ≤ (lastLine (d.before source) ++ firstLine (d.behind source)).length
  caret : d.format source = d.headline ++ "\n"
    ++ String.ofList (lastLine (d.before source) ++ firstLine (d.behind source)) ++ "\n"
    ++ String.ofList (List.replicate (tabbedWidth (lastLine (d.before source))) ' ') ++ "^"

theorem pointed_of_exact {d : Diagnostic} {source : String} (h : d.span.start.Exact source.toList) :
    d.Pointed source := by
  have hline := h.line
  have hcolumn := h.column
  have hat := getElem?_linesOf (d.before source) (d.behind source)
  rw [show d.before source ++ d.behind source = source.toList from List.take_append_drop ..] at hat
  change d.span.start.line = 1 + ((d.before source).count '\n' : Nat) at hline
  change d.span.start.column = 1 + ((lastLine (d.before source)).length : Nat) at hcolumn
  have hindex : (d.span.start.line - 1).toNat = (d.before source).count '\n' := by omega
  have htake : (d.span.start.column - 1).toNat = (lastLine (d.before source)).length := by omega
  have hlength := (List.getElem?_eq_some_iff.1 hat).1
  have hshown : d.lineIn source =
      some (lastLine (d.before source) ++ firstLine (d.behind source)) := by
    rw [lineIn, if_neg (by omega), hindex, hat]
  refine ⟨by omega, hshown, ?_, ?_⟩
  · rw [List.length_append]
    omega
  · rw [format, hshown]
    simp only
    rw [htake, List.take_left]

end Diagnostic

end Scad
