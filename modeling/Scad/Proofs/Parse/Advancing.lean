import Scad.Proofs.Parse.Building.Statement

/-! No production goes back, and none leaves a level open. Whatever was read consumed a token, if
the productions were begun at tokens that they can begin with. -/
namespace Scad.Parse

variable {α β : Type}

/-- Tokens before the end marker, whose numbers can be read. -/
structure Convertible (src : Source) (ts : List Token) : Prop where
  stop : src.stop.kind = .eof
  running : ∀ t ∈ ts, t.kind ≠ .eof
  numeral : ∀ t ∈ ts, t.kind = .number → ∃ x, Numeral.read t.text = .ok x

/-- A state that is not further back, at the same level. -/
structure Onward (s s' : State) : Prop where
  depth : s'.depth = s.depth
  suffix : s'.rest <:+ s.rest
  position : s'.position + s'.rest.length = s.position + s.rest.length

namespace Onward

variable {s s' s'' : State}

theorem refl (s : State) : Onward s s := ⟨rfl, List.suffix_refl _, rfl⟩

theorem trans (h : Onward s s') (h' : Onward s' s'') : Onward s s'' :=
  ⟨h'.depth.trans h.depth, h'.suffix.trans h.suffix, h'.position.trans h.position⟩

theorem position_le (h : Onward s s') : s.position ≤ s'.position := by
  have hlength := h.suffix.length_le
  have hposition := h.position
  omega

/-- Where nothing was consumed, the tokens ahead are the same. -/
theorem rest_eq (h : Onward s s') (hp : s'.position ≤ s.position) : s'.rest = s.rest := by
  refine h.suffix.eq_of_length_le ?_
  have hposition := h.position
  omega

/-- A step that consumes nothing. -/
theorem still (hd : s'.depth = s.depth) (hr : s'.rest = s.rest) (hp : s'.position = s.position) :
    Onward s s' := ⟨hd, hr ▸ List.suffix_refl _, by rw [hr, hp]⟩

theorem leave (h : Onward s s') :
    Onward { s with depth := s.depth - 1 } { s' with depth := s'.depth - 1 } :=
  ⟨congrArg (· - 1) h.depth, h.suffix, h.position⟩

end Onward

theorem onward_behind {s : State} {t : Token} {rest : List Token} (hr : s.rest = t :: rest) :
    Onward s (s.behind t rest) := by
  refine ⟨rfl, ?_, ?_⟩
  · rw [hr]
    exact List.suffix_cons t rest
  · show s.position + 1 + rest.length = s.position + s.rest.length
    rw [hr, List.length_cons]
    omega

theorem SameButErrors.onward {s s' : State} (h : SameButErrors s s') : Onward s s' :=
  .still h.depth h.rest h.position

theorem onward_report (message : String) (span : Span) (src : Source) (s : State) {B : Prop} :
    (report message span src s).Ends (fun _ s' => Onward s s') (fun _ => False) B :=
  (sameButErrors_report message span src s).imp (fun _ _ h => h.onward) (fun _ h => h) False.elim

theorem skipStatement_consumes (previous : Token) {t : Token} (rest : List Token)
    (h : t.kind ≠ .symbol .rightBrace) :
    (skipStatement 0 previous (t :: rest)).2.length ≤ rest.length := by
  rw [skipStatement, if_neg h]
  split
  · exact Nat.le_refl _
  · split
    · exact (skipStatement_suffix _ _ _).length_le
    · exact (skipStatement_suffix _ _ _).length_le

theorem onward_synchronize (src : Source) (s : State) {B : Prop} :
    (synchronize src s).Ends (fun _ s' => Onward s s' ∧ ∀ t rest, s.rest = t :: rest →
      t.kind ≠ .symbol .rightBrace → s.position < s'.position) (fun _ => False) B := by
  have hs := skipStatement_suffix 0 s.previous s.rest
  have hlength := hs.length_le
  refine ⟨⟨rfl, hs, ?_⟩, fun t rest hr ht => ?_⟩
  · show s.position + (s.rest.length - (skipStatement 0 s.previous s.rest).2.length) +
      (skipStatement 0 s.previous s.rest).2.length = s.position + s.rest.length
    omega
  · have hconsumes := skipStatement_consumes s.previous rest ht
    show s.position < s.position + (s.rest.length - (skipStatement 0 s.previous s.rest).2.length)
    rw [hr, List.length_cons]
    omega

def Piece.consumes : Piece → Bool
  | .passed | .skipped | .opened .. | .tree .. | .element .. => true
  | .ahead _ | .reported | .trees .. => false

/-- What may stand ahead: tokens before the end marker. Numbers that cannot be read stop
the work. -/
structure Running (breaks : Prop) (src : Source) (s : State) : Prop where
  stop : src.stop.kind = .eof
  running : ∀ t ∈ s.rest, t.kind ≠ .eof
  numeral : ∀ t ∈ s.rest, t.kind = .number → (∃ x, Numeral.read t.text = .ok x) ∨ breaks

theorem Running.onward {breaks : Prop} {src : Source} {s s' : State} (h : Running breaks src s)
    (hs : Onward s s') : Running breaks src s' :=
  ⟨h.stop, fun t ht => h.running t (hs.suffix.mem ht), fun t ht => h.numeral t (hs.suffix.mem ht)⟩

def advancing (placed breaks : Prop) : Interpretation where
  placed := placed
  breaks := breaks
  start := Running breaks
  reads _ p s s' := Onward s s' ∧ (placed → p.consumes → s.position < s'.position)
  lost _ s s' := Onward s s'
  start_reads hs h := hs.onward h.1
  lost_behind _ h h' := h.1.trans h'
  start_deeper hs := ⟨hs.stop, hs.running, hs.numeral⟩
  reads_leave h := ⟨h.1.leave, h.2⟩
  lost_leave := Onward.leave
  advance _ hr := ⟨onward_behind hr, fun _ _ => Nat.lt_succ_self _⟩
  ending hs hr hp := ⟨.refl _, fun hplaced => absurd hs.stop (hp hplaced)⟩
  passed_append _ h h' :=
    ⟨h.1.trans h'.1, fun hp hc => Nat.lt_of_lt_of_le (h.2 hp hc) h'.1.position_le⟩
  note _ _ := ⟨.still rfl rfl rfl, fun _ hc => by cases hc⟩
  report _ _ := (onward_report ..).mono (fun _ _ h => ⟨h, fun _ hc => by cases hc⟩) fun _ h => h
  unmatched {src s} hs hk := by
    cases hr : s.rest with
    | nil =>
        rw [ahead, hr] at hk
        exact absurd (hs.stop.symm.trans hk) (by simp)
    | cons t rest =>
        rw [dropBrace_cons hr]
        refine (onward_report ..).mono (fun _ s' h => ?_) fun _ h => h
        have hdropping : Onward s s.dropping := .still rfl rfl rfl
        exact ⟨hdropping.trans ((onward_behind (s := s.dropping) hr).trans h),
          fun _ _ => h.position_le⟩
  give_up _ h := h.1
  passed_reported _ h h' :=
    ⟨h.1.trans h'.1, fun hp _ => Nat.lt_of_lt_of_le (h.2 hp rfl) h'.1.position_le⟩
  skip {src s s'} hs h hplaced := by
    refine (onward_synchronize src s').mono (fun _ s'' h' => ⟨h.trans h'.1, fun hp _ => ?_⟩)
      fun _ h => h
    -- If nothing was consumed before, the skipping starts at the same token.
    rcases Nat.lt_or_ge s.position s'.position with hlt | hle
    · exact Nat.lt_of_lt_of_le hlt h'.1.position_le
    · obtain ⟨heof, hbrace⟩ := hplaced hp
      have hrest := h.rest_eq hle
      cases hr : s.rest with
      | nil =>
          rw [ahead, hr] at heof
          exact absurd hs.stop heof
      | cons t rest =>
          rw [ahead, hr] at hbrace
          exact Nat.lt_of_le_of_lt h.position_le (h'.2 t rest (hrest.trans hr) hbrace)
  number {src s} hs hk := by
    cases hr : s.rest with
    | nil =>
        rw [ahead, hr] at hk
        exact absurd (hs.stop.symm.trans hk) (by simp)
    | cons t rest =>
        rw [ahead, hr] at hk
        rw [ahead]
        exact hs.numeral t (hr ▸ List.mem_cons_self ..) hk
  trees_nil _ := ⟨.refl _, fun _ hc => by cases hc⟩
  trees_append _ h h' := ⟨h.1.trans h'.1, fun _ hc => by cases hc⟩
  raise {src p k s s'} h _ := ⟨h.1, fun hp hc => h.2 hp (by cases p <;> exact hc)⟩
  gather h := ⟨h.1, fun _ hc => by cases hc⟩
  element h := h
  enclosed _ h h' h'' := ⟨h.1.trans (h'.1.trans h''.1), fun hp _ =>
    Nat.lt_of_lt_of_le (h.2 hp rfl) (h'.1.trans h''.1).position_le⟩
  open_passed _ h := h
  open_tree _ h := h
  opened_append _ h h' :=
    ⟨h.1.trans h'.1, fun hp hc => Nat.lt_of_lt_of_le (h.2 hp hc) h'.1.position_le⟩
  make _ h _ := ⟨h.1.trans (.still rfl rfl rfl), h.2⟩
  checked _ h _ _ :=
    (sameButErrors_checkUniform ..).imp
    (fun _ _ hs => ⟨h.1.trans (.still hs.depth hs.rest hs.position), fun hp _ => hs.position ▸
      h.2 hp rfl⟩) (fun _ h => h) False.elim
  missing _ h := ⟨h.1.trans (.still rfl rfl rfl), fun _ hc => by cases hc⟩

variable {placed breaks : Prop} {src : Source} {c : List Piece} {s s' : State}

theorem onward_of_path (h : (advancing placed breaks).Path src c s s') : Onward s s' := by
  induction c generalizing s with
  | nil =>
      obtain rfl := h
      exact .refl _
  | cons p c ih =>
      obtain ⟨m, hp, hc⟩ := h
      cases p with
      | ahead t =>
          obtain ⟨rfl, -⟩ := hp
          exact ih hc
      | _ => exact hp.1.trans (ih hc)

theorem position_lt_of_path (h : (advancing placed breaks).Path src c s s') (hplaced : placed)
    (hc : c.any Piece.consumes) : s.position < s'.position := by
  induction c generalizing s with
  | nil => cases hc
  | cons p c ih =>
      obtain ⟨m, hp, hrest⟩ := h
      rw [List.any_cons, Bool.or_eq_true] at hc
      rcases hc with hc | hc
      · have hlt : s.position < m.position := by
          cases p with
          | ahead t => cases hc
          | _ => exact hp.2 hplaced hc
        exact Nat.lt_of_lt_of_le hlt (onward_of_path hrest).position_le
      · have hle : s.position ≤ m.position := by
          cases p with
          | ahead t =>
              obtain ⟨rfl, -⟩ := hp
              exact Nat.le_refl _
          | _ => exact hp.1.position_le
        exact Nat.lt_of_le_of_lt hle (ih hrest hc)

theorem Builds.onward {p : Parser α} {out : α → List Piece}
    (h : Builds (advancing placed breaks) [] p out) (hs : Running breaks src s) :
    (p src s).Ends (fun _ s' => Onward s s') (Onward s) breaks :=
  (h src s s hs rfl).mono (fun _ _ h => onward_of_path h) fun _ h => h

/-- A step that gives something consumes something. -/
theorem Builds.consumes {step : Parser (Option α)} {last : List Piece} {seg : α → List Piece}
    (h : Builds (advancing placed breaks) [] step fun o => o.elim last seg) (hplaced : placed)
    (hseg : ∀ a, (seg a).any Piece.consumes) (hs : Running breaks src s) :
    (step src s).Ends (fun o s' => o.isSome → s.position < s'.position) (fun _ => True) breaks := by
  refine (h src s s hs rfl).mono (fun o s' ho hsome => ?_) fun _ _ => trivial
  cases o with
  | none => cases hsome
  | some a => exact position_lt_of_path ho hplaced (hseg a)

end Scad.Parse
