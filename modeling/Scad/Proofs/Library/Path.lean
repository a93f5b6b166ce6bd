import Mathlib.Data.List.Basic
import Scad.Library.SearchPath

/-! A normal path is written in one way: its text means the path itself, from whatever folder. -/
namespace Scad

namespace Text

variable {separator : Char}

theorem pieces_ne_nil (cs : List Char) : pieces separator cs ≠ [] := by
  cases cs with
  | nil => exact List.cons_ne_nil _ _
  | cons c cs =>
      rw [pieces]
      split
      · split <;> exact List.cons_ne_nil _ _
      · exact List.cons_ne_nil _ _

theorem pieces_separator (cs : List Char) :
    pieces separator (separator :: cs) = [] :: pieces separator cs := by
  rw [pieces]
  cases h : pieces separator cs with
  | nil => exact absurd h (pieces_ne_nil cs)
  | cons piece rest => exact if_pos rfl

/-- A character that does not separate goes to the first piece. -/
theorem pieces_cons {c : Char} (hc : c ≠ separator) {cs piece : List Char} {rest : List (List Char)}
    (h : pieces separator cs = piece :: rest) :
    pieces separator (c :: cs) = (c :: piece) :: rest := by
  rw [pieces, h]
  exact if_neg hc

theorem pieces_append {piece : List Char} (h : separator ∉ piece) {cs first : List Char}
    {rest : List (List Char)} (hcs : pieces separator cs = first :: rest) :
    pieces separator (piece ++ cs) = (piece ++ first) :: rest := by
  induction piece with
  | nil => exact hcs
  | cons c piece ih =>
      rw [List.mem_cons, not_or] at h
      exact pieces_cons (Ne.symm h.1) (ih h.2)

/-- Nothing separates inside of a piece. -/
theorem not_mem_of_mem_pieces {cs piece : List Char} (h : piece ∈ pieces separator cs) :
    separator ∉ piece := by
  induction cs generalizing piece with
  | nil =>
      cases List.mem_singleton.1 h
      exact List.not_mem_nil
  | cons c cs ih =>
      rw [pieces] at h
      cases hcs : pieces separator cs with
      | nil => exact absurd hcs (pieces_ne_nil cs)
      | cons first rest =>
          simp only [hcs] at h ih
          split at h
          · rcases List.mem_cons.1 h with rfl | h
            · exact List.not_mem_nil
            · exact ih h
          · rename_i hc
            rcases List.mem_cons.1 h with rfl | h
            · rw [List.mem_cons, not_or]
              exact ⟨Ne.symm hc, ih (List.mem_cons_self ..)⟩
            · exact ih (List.mem_cons_of_mem _ h)

/-- Pieces that are put together are the pieces of the whole. -/
theorem pieces_intercalate {ps : List (List Char)} (h : ∀ p ∈ ps, separator ∉ p) (hps : ps ≠ []) :
    pieces separator ([separator].intercalate ps) = ps := by
  induction ps with
  | nil => exact absurd rfl hps
  | cons p ps ih =>
      have hp := h p (List.mem_cons_self ..)
      cases ps with
      | nil =>
          rw [List.intercalate_singleton, ← List.append_nil p]
          exact pieces_append hp rfl
      | cons q ps =>
          have hrest := ih (fun p hp => h p (List.mem_cons_of_mem _ hp)) (List.cons_ne_nil _ _)
          rw [List.intercalate_cons_cons, List.append_assoc, List.singleton_append]
          have hall := pieces_append hp (pieces_separator ([separator].intercalate (q :: ps)))
          rw [hall, hrest, List.append_nil]

end Text

namespace Library

namespace Path

/-- What may be a name on the way: one step down. -/
structure IsName (s : String) : Prop where
  nonempty : s ≠ ""
  here : s ≠ "."
  up : s ≠ ".."
  plain : '/' ∉ s.toList

def Normal (p : Path) : Prop := ∀ s ∈ p.names, IsName s

theorem step_isName {names : List String} {s : String} (hs : IsName s) :
    step names s = names ++ [s] := by
  rw [step, if_neg (by simp [hs.nonempty, hs.here]), if_neg hs.up]

theorem foldl_step {names : List String} (h : ∀ s ∈ names, IsName s) (before : List String) :
    names.foldl step before = before ++ names := by
  induction names generalizing before with
  | nil => exact (List.append_nil _).symm
  | cons s names ih =>
      rw [List.foldl_cons, step_isName (h s (List.mem_cons_self ..)),
        ih fun s hs => h s (List.mem_cons_of_mem _ hs), List.append_assoc, List.singleton_append]

/-- Steps lead from a normal path to a normal path, if none has a slash. -/
theorem isName_of_mem_foldl {steps : List String} (hsteps : ∀ s ∈ steps, '/' ∉ s.toList)
    {names : List String} (h : ∀ s ∈ names, IsName s) : ∀ s ∈ steps.foldl step names, IsName s := by
  refine List.foldlRecOn (motive := fun names => ∀ s ∈ names,
    IsName s) steps _ h fun names h s hs => ?_
  unfold step
  split
  · exact h
  · rename_i hplain
    split
    · exact fun t ht => h t (List.dropLast_subset _ ht)
    · rename_i hup
      intro t ht
      rcases List.mem_append.1 ht with ht | ht
      · exact h t ht
      · cases List.mem_singleton.1 ht
        rw [not_or] at hplain
        exact ⟨hplain.1, hplain.2, hup, hsteps s hs⟩

theorem normal_ofText {folder : Path} (h : folder.Normal) (text : String) :
    (ofText folder text).Normal := by
  have hsteps : ∀ s ∈ steps text, '/' ∉ s.toList := by
    intro s hs
    obtain ⟨piece, hpiece, rfl⟩ := List.mem_map.1 hs
    rw [String.toList_ofList]
    exact Text.not_mem_of_mem_pieces hpiece
  unfold ofText
  split
  · exact isName_of_mem_foldl hsteps nofun
  · exact isName_of_mem_foldl hsteps nofun
  · exact isName_of_mem_foldl hsteps nofun
  · exact isName_of_mem_foldl hsteps h

/-- The steps of names that are put together. -/
theorem pieces_names {names : List String} (h : ∀ s ∈ names, IsName s) (hne : names ≠ []) :
    (Text.pieces '/' (['/'].intercalate (names.map String.toList))).map String.ofList = names := by
  rw [Text.pieces_intercalate _ (by simpa using hne), List.map_map]
  · exact (List.map_congr_left fun s _ => String.ofList_toList).trans (List.map_id names)
  · intro p hp
    obtain ⟨s, hs, rfl⟩ := List.mem_map.1 hp
    exact (h s hs).plain

theorem intercalate_eq_cons {s : String} {names : List String} (h : ∀ t ∈ s :: names, IsName t) :
    ∃ c cs, ['/'].intercalate ((s :: names).map String.toList) = c :: cs ∧ c ≠ '/' := by
  have hs := h s (List.mem_cons_self ..)
  cases hchars : s.toList with
  | nil => exact absurd (String.toList_eq_nil_iff.1 hchars) hs.nonempty
  | cons c cs =>
      have hc : c ≠ '/' := fun he => hs.plain (by rw [hchars, he]; exact List.mem_cons_self ..)
      cases names with
      | nil => exact ⟨c, cs, by simp [hchars], hc⟩
      | cons t names =>
          rw [List.map_cons, List.map_cons, List.intercalate_cons_cons, hchars]
          exact ⟨c, _, rfl, hc⟩

/-- The text of a normal path means this path. -/
theorem ofText_text {p : Path} (h : p.Normal) (folder : Path) : ofText folder p.text = p := by
  obtain ⟨doubled, names⟩ := p
  have hchars : (Path.mk doubled names).text.toList =
      '/' :: ((if doubled then ['/'] else []) ++ ['/'].intercalate (names.map String.toList)) := by
    rw [text, String.toList_append, String.toList_intercalate, show "/".toList = ['/'] by decide]
    cases doubled <;> simp
  cases names with
  | nil => cases doubled <;> rfl
  | cons s names =>
      obtain ⟨c, cs, hcs, hc⟩ := intercalate_eq_cons h
      have hsteps : ∀ before,
          (steps (Path.mk doubled (s :: names)).text).foldl step before = before ++ s :: names := by
        intro before
        have hnames := pieces_names h (List.cons_ne_nil s names)
        rw [steps, hchars, Text.pieces_separator]
        cases doubled with
        | false =>
            rw [if_neg Bool.false_ne_true, List.nil_append, List.map_cons, hnames]
            exact foldl_step h before
        | true =>
            rw [if_pos rfl, List.singleton_append, Text.pieces_separator, List.map_cons,
              List.map_cons, hnames]
            exact foldl_step h before
      -- The first name does not start with a slash, so that the slashes in front can be told.
      rw [hcs] at hchars
      rw [ofText, hchars]
      cases doubled with
      | false => simp [hc, hsteps]
      | true => simp [hc, hsteps]

theorem text_injective {p q : Path} (hp : p.Normal) (hq : q.Normal) (h : p.text = q.text) :
    p = q := by
  rw [← ofText_text hp ⟨false, []⟩, h, ofText_text hq]

end Path

end Library

end Scad
