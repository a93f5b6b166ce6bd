import Scad.Proofs.Parse.Building.Statement
import Scad.Proofs.Parse.Concatenation

/-! Where syntax errors stand. All but one kind are reported no further back than the token ahead,
so they are in the order of the text. The exception is a vector whose elements do not go together,
which is found when the vector has been read. It stands where nothing else does, and an error behind
it is no longer compared with the one before it. -/
namespace Scad

namespace Diagnostic

def IsMixture (d : Diagnostic) : Prop := d.message = mixture

instance (d : Diagnostic) : Decidable d.IsMixture :=
  inferInstanceAs (Decidable (d.message = mixture))

def offset (d : Diagnostic) : Int := d.span.start.offset

end Diagnostic

open Diagnostic (mixture)

/-- Errors in the order in which they were reported, the last one at `last`, when the token ahead
begins at `here`. -/
structure Logged (here last : Int) (ds : List Diagnostic) : Prop where
  syntactic : ∀ d ∈ ds, d.fault = .syntactic
  behind : ∀ d ∈ ds, d.offset ≤ here
  mixed : ∀ d ∈ ds, d.IsMixture → d.offset < here
  lone : ds.Pairwise fun d e => d.IsMixture ∨ e.IsMixture → d.offset ≠ e.offset
  rising : ds.Pairwise fun d e => ¬ d.IsMixture → ¬ e.IsMixture → d.offset ≤ e.offset
  varied : ds.IsChain (·.offset ≠ ·.offset)
  last : ∀ d ∈ ds.getLast?, d.offset = last

namespace Logged

variable {here here' last : Int} {ds : List Diagnostic} {d : Diagnostic}

theorem nil : Logged here last [] where
  syntactic _ h := absurd h List.not_mem_nil
  behind _ h := absurd h List.not_mem_nil
  mixed _ h := absurd h List.not_mem_nil
  lone := .nil
  rising := .nil
  varied := .nil
  last _ h := absurd h (Option.not_mem_none _)

theorem later (h : Logged here last ds) (hle : here ≤ here') : Logged here' last ds where
  syntactic := h.syntactic
  behind e he := Int.le_trans (h.behind e he) hle
  mixed e he hm := Int.lt_of_lt_of_le (h.mixed e he hm) hle
  lone := h.lone
  rising := h.rising
  varied := h.varied
  last := h.last

theorem push (h : Logged here last ds) (hf : d.fault = .syntactic) (hd : d.offset ≤ here)
    (hmixed : d.IsMixture → d.offset < here)
    (hlone : ∀ e ∈ ds, e.IsMixture ∨ d.IsMixture → e.offset ≠ d.offset)
    (hrising : ∀ e ∈ ds, ¬ d.IsMixture → e.offset ≤ d.offset) (hlast : d.offset ≠ last) :
    Logged here d.offset (ds ++ [d]) where
  syntactic := by
    simpa [or_imp, forall_and] using ⟨h.syntactic, hf⟩
  behind := by
    simpa [or_imp, forall_and] using ⟨h.behind, hd⟩
  mixed := by
    simpa [or_imp, forall_and] using ⟨h.mixed, hmixed⟩
  lone := List.pairwise_append.2 ⟨h.lone, List.pairwise_singleton _ _, by simpa using hlone⟩
  rising := List.pairwise_append.2 ⟨h.rising, List.pairwise_singleton _ _, fun e he f hf _ hn => by
    obtain rfl := List.mem_singleton.1 hf
    exact hrising e he hn⟩
  varied := List.isChain_append.2 ⟨h.varied, .singleton _, fun e he f hf => by
    obtain rfl : f = d := by simpa using hf.symm
    rw [h.last e he]
    exact hlast.symm⟩
  last := by simp

/-- An error that is no further back than the token ahead was. -/
theorem ahead (h : Logged here last ds) (hf : d.fault = .syntactic) (hle : here ≤ d.offset)
    (hn : ¬ d.IsMixture) (hlast : d.offset ≠ last) : Logged d.offset d.offset (ds ++ [d]) := by
  refine (h.later hle).push hf (Int.le_refl _) (fun hm => absurd hm hn) (fun e he hm => ?_)
    (fun e he _ => Int.le_trans (h.behind e he) hle) hlast
  exact Int.ne_of_lt (Int.lt_of_lt_of_le (h.mixed e he (hm.resolve_right hn)) hle)

/-- An error at a place that was left without one. -/
theorem back (h : Logged here last ds) (hf : d.fault = .syntactic) (hlt : d.offset < here)
    (hm : d.IsMixture) (hfree : ∀ e ∈ ds, e.offset ≠ d.offset) (hlast : d.offset ≠ last) :
    Logged here d.offset (ds ++ [d]) :=
  h.push hf (Int.le_of_lt hlt) (fun _ => hlt) (fun e he _ => hfree e he)
    (fun _ _ hn => absurd hm hn) hlast

/-- Two errors at one place have a mixture between them, and are none. -/
theorem separated (h : Logged here last ds) {before between behind : List Diagnostic}
    {d e : Diagnostic} (hds : ds = before ++ d :: between ++ e :: behind)
    (he : d.offset = e.offset) :
    ¬ d.IsMixture ∧ ¬ e.IsMixture ∧ ∃ x ∈ between, x.IsMixture := by
  have hsub : d :: (between ++ [e]) <:+: ds := ⟨before, behind, by simp [hds]⟩
  have hlone := (h.lone.sublist hsub.sublist)
  have hrising := (h.rising.sublist hsub.sublist)
  have hvaried := h.varied.infix hsub
  have hnone := fun hm => (List.pairwise_cons.1 hlone).1 e (by simp) hm he
  refine ⟨fun hm => hnone (.inl hm), fun hm => hnone (.inr hm), ?_⟩
  by_contra hfree
  -- With nothing else between them, all that stands there is at the same place.
  cases between with
  | nil => exact absurd he (by simpa using hvaried)
  | cons x between =>
      have hx : ¬ x.IsMixture := fun hm => hfree ⟨x, List.mem_cons_self .., hm⟩
      have hdx := (List.pairwise_cons.1 hrising).1 x (by simp) (fun hm => hnone (.inl hm)) hx
      have hxe := (List.pairwise_cons.1 (List.pairwise_cons.1 hrising).2).1 e (by simp) hx
        (fun hm => hnone (.inr hm))
      have hne : d.offset ≠ x.offset := (List.isChain_cons_cons.1 hvaried).1
      omega

/-- Without mixtures, errors stand one behind the other. -/
theorem increasing (h : Logged here last ds) (hn : ∀ d ∈ ds, ¬ d.IsMixture) :
    ds.Pairwise (·.offset < ·.offset) := by
  have hchain : ds.IsChain (·.offset < ·.offset) := by
    refine List.isChain_iff_getElem.2 fun i hi => ?_
    have hle := List.pairwise_iff_getElem.1 h.rising i (i + 1) (by omega) hi (by omega)
      (hn _ (List.getElem_mem _)) (hn _ (List.getElem_mem _))
    have hne := List.isChain_iff_getElem.1 h.varied i hi
    omega
  have htrans : IsTrans Diagnostic (·.offset < ·.offset) := ⟨fun _ _ _ => Int.lt_trans⟩
  exact List.isChain_iff_pairwise.1 hchain

end Logged

namespace Parse

variable {α β : Type}

def State.here (src : Source) (s : State) : Int := (ahead src s.rest).span.start.offset

/-- Tokens in the order of a text, and the errors so far. -/
structure Orderly (src : Source) (s : State) : Prop where
  stop : src.stop.kind = .eof
  rising : (s.rest ++ [src.stop]).Pairwise (·.span.start.offset < ·.span.start.offset)
  logged : Logged (s.here src) s.lastErrorAt s.errors

/-- A later state, with errors that are no further back than the token that was ahead. -/
structure Adds (src : Source) (s s' : State) : Prop where
  suffix : s'.rest <:+ s.rest
  orderly : Orderly src s'
  errors : ∃ ds, s'.errors = s.errors ++ ds ∧ ∀ d ∈ ds, s.here src ≤ d.offset

structure PassedErrorFree (src : Source) (s : State) (o : Int) : Prop where
  behind : o < s.here src
  free : ∀ d ∈ s.errors, d.offset ≠ o

theorem here_le {src : Source} {s s' : State} (h : Orderly src s) (hs : s'.rest <:+ s.rest) :
    s.here src ≤ s'.here src := by
  obtain ⟨ts, hts⟩ := hs
  have hr := h.rising
  unfold State.here
  rw [← hts] at hr ⊢
  cases ts with
  | nil => exact Int.le_refl _
  | cons t ts =>
      have hlt := (List.pairwise_cons.1 hr).1 (ahead src s'.rest)
        (by cases s'.rest <;> simp [ahead])
      exact Int.le_of_lt hlt

theorem State.errors_push (s : State) (d : Diagnostic) (last : Int) :
    State.errors { s with events := s.events.push (.error d), lastErrorAt := last } =
      s.errors ++ [d] := by
  simp [State.errors, Event.error?]

namespace Adds

variable {src : Source} {s s' s'' : State} {o : Int}

theorem refl (h : Orderly src s) : Adds src s s :=
  ⟨List.suffix_refl _, h, [], (List.append_nil _).symm, fun _ hd => absurd hd List.not_mem_nil⟩

theorem trans (h : Adds src s s') (h' : Adds src s' s'') (hs : Orderly src s) : Adds src s s'' := by
  obtain ⟨ds, hds, hle⟩ := h.errors
  obtain ⟨es, hes, hle'⟩ := h'.errors
  refine ⟨h'.suffix.trans h.suffix, h'.orderly, ds ++ es, by rw [hes, hds, List.append_assoc],
    fun d hd => ?_⟩
  rcases List.mem_append.1 hd with hd | hd
  · exact hle d hd
  · exact Int.le_trans (here_le hs h.suffix) (hle' d hd)

/-- A step that reports nothing. -/
theorem silent (h : Orderly src s) (hr : s'.rest <:+ s.rest) (he : s'.errors = s.errors)
    (hl : s'.lastErrorAt = s.lastErrorAt) : Adds src s s' where
  suffix := hr
  orderly := by
    refine ⟨h.stop, h.rising.sublist (hr.sublist.append_right _), ?_⟩
    rw [he, hl]
    exact h.logged.later (here_le h hr)
  errors := ⟨[], by rw [he, List.append_nil], fun _ hd => absurd hd List.not_mem_nil⟩

theorem push (h : Adds src s s') {d : Diagnostic}
    (hlogged : Logged (s'.here src) d.offset (s'.errors ++ [d])) (hle : s.here src ≤ d.offset) :
    Adds src s { s' with events := s'.events.push (.error d), lastErrorAt := d.offset } := by
  obtain ⟨ds, hds, hall⟩ := h.errors
  refine ⟨h.suffix, ⟨h.orderly.stop, h.orderly.rising, ?_⟩, ds ++ [d], ?_, ?_⟩
  · rw [State.errors_push]
    exact hlogged
  · rw [State.errors_push, hds, List.append_assoc]
  · simpa [or_imp, forall_and] using ⟨hall, hle⟩

/-- An error at the token that was ahead, whether it is consumed or not. -/
theorem report (hs : Orderly src s) (h : Adds src s s') (he : s'.errors = s.errors)
    (hl : s'.lastErrorAt = s.lastErrorAt) {message : String} (hm : message ≠ mixture) {span : Span}
    (hspan : span.start.offset = s.here src) :
    (report message span src s').Ends (fun _ s'' => Adds src s s'') (fun _ => False) False := by
  unfold Parse.report
  split
  · exact h
  · rename_i hne
    have hlogged := hs.logged.ahead (d := ⟨.syntactic, span, message⟩) rfl
      (Int.le_of_eq hspan.symm) hm fun ho => hne (ho.trans hl.symm)
    refine h.push (d := ⟨.syntactic, span, message⟩) ?_ (Int.le_of_eq hspan.symm)
    rw [he]
    exact hlogged.later (Int.le_trans (Int.le_of_eq hspan) (here_le hs h.suffix))

theorem passed (h : Adds src s s') (hs : Orderly src s) (hp : PassedErrorFree src s o) :
    PassedErrorFree src s' o := by
  obtain ⟨ds, hds, hle⟩ := h.errors
  refine ⟨Int.lt_of_lt_of_le hp.behind (here_le hs h.suffix), fun d hd => ?_⟩
  rw [hds] at hd
  rcases List.mem_append.1 hd with hd | hd
  · exact hp.free d hd
  · exact (Int.ne_of_lt (Int.lt_of_lt_of_le hp.behind (hle d hd))).symm

end Adds

/-- Whoever finds a place without an error leaves it so. -/
structure LeavesErrorFree (src : Source) (s s' : State) (o : Int) : Prop where
  reached : s.here src ≤ o
  passed : (∀ d ∈ s.errors, d.offset ≠ o) → PassedErrorFree src s' o

namespace LeavesErrorFree

variable {src : Source} {s s' s'' : State} {o : Int}

/-- What is left without an error stays so. -/
theorem trans (h : LeavesErrorFree src s s' o) (h' : Adds src s' s'') (hs : Orderly src s') :
    LeavesErrorFree src s s'' o :=
  ⟨h.reached, fun hfree => h'.passed hs (h.passed hfree)⟩

/-- Where nothing was reported before. -/
theorem behind (h : Adds src s s') (he : s'.errors = s.errors) (hs : Orderly src s)
    (h' : LeavesErrorFree src s' s'' o) :
    LeavesErrorFree src s s'' o :=
  ⟨Int.le_trans (here_le hs h.suffix) h'.reached, fun hfree => h'.passed (he ▸ hfree)⟩

end LeavesErrorFree

/-- A node that begins no further back than the token that was ahead, at a place that is left
without an error. -/
structure NodeErrorFree (src : Source) (s s' : State) (n : Node) : Prop where
  reached : s.here src ≤ n.span.start.offset
  passed : PassedErrorFree src s' n.span.start.offset

theorem NodeErrorFree.trans {src : Source} {s s' s'' : State} {n : Node}
    (h : NodeErrorFree src s s' n) (h' : Adds src s' s'') (hs : Orderly src s') :
    NodeErrorFree src s s'' n := ⟨h.reached, h'.passed hs h.passed⟩

theorem Adds.kept {src : Source} {s s' s'' : State} {n : Node} (h : Adds src s s')
    (hs : Orderly src s) (hn : NodeErrorFree src s' s'' n) : NodeErrorFree src s s'' n :=
  ⟨Int.le_trans (here_le hs h.suffix) hn.reached, hn.passed⟩

/-- A node at a place that no error has reached yet. -/
theorem LeavesErrorFree.kept {src : Source} {s s' : State} {n : Node}
    (h : LeavesErrorFree src s s' n.span.start.offset)
    (hfresh : ∀ d ∈ s.errors, d.offset < s.here src) : NodeErrorFree src s s' n :=
  ⟨h.reached, h.passed fun d hd => Int.ne_of_lt (Int.lt_of_lt_of_le (hfresh d hd) h.reached)⟩

/-- What a piece leaves without an error. -/
def Piece.Leaves (src : Source) (s s' : State) : Piece → Prop
  | .passed => s'.errors = s.errors ∧ s.here src < s'.here src
  | .opened t _ _ => t.span.start.offset = s.here src ∧ LeavesErrorFree src s s' t.span.start.offset
  | .tree n _ => n.span.start.offset = s.here src ∧ LeavesErrorFree src s s' n.span.start.offset
  | .element n _ => LeavesErrorFree src s s' n.span.start.offset
  | .ahead _ | .reported | .skipped | .trees .. => True

/-- Between two states errors were added, and a piece was read. -/
def ReadsReporting (src : Source) (p : Piece) (s s' : State) : Prop :=
  Adds src s s' ∧ p.Leaves src s s'

/-- Tokens that were passed are behind, without an error unless they had one. -/
theorem ReadsReporting.leavesErrorFree {src : Source} {s s' : State}
    (h : ReadsReporting src .passed s s') : LeavesErrorFree src s s' (s.here src) :=
  ⟨Int.le_refl _, fun hfree => ⟨h.2.2, h.2.1 ▸ hfree⟩⟩

/-- Behind a token nothing was reported yet. -/
theorem ReadsReporting.kept {src : Source} {s m s' : State} {n : Node} {k : Nat}
    (h : ReadsReporting src .passed s m) (hn : ReadsReporting src (.element n k) m s')
    (hs : Orderly src s) : NodeErrorFree src m s' n :=
  LeavesErrorFree.kept hn.2 fun d hd => Int.lt_of_le_of_lt (hs.logged.behind d (h.2.1 ▸ hd)) h.2.2

theorem Adds.at_depth {src : Source} {s s' : State} (h : Adds src s s') (d d' : Nat) :
    Adds src { s with depth := d } { s' with depth := d' } :=
  ⟨h.suffix, ⟨h.orderly.stop, h.orderly.rising, h.orderly.logged⟩, h.errors⟩

/-- Consuming the token ahead. -/
theorem adds_behind {src : Source} {s : State} {t : Token} {rest : List Token} (hs : Orderly src s)
    (hr : s.rest = t :: rest) :
    Adds src s (s.behind t rest) ∧ s.here src < (s.behind t rest).here src := by
  refine ⟨.silent hs (by rw [hr]; exact List.suffix_cons t rest) rfl rfl, ?_⟩
  have hrising := hs.rising
  rw [hr, List.cons_append] at hrising
  rw [State.here, hr]
  exact (List.pairwise_cons.1 hrising).1 _ (by cases rest <;> simp [State.behind, ahead])

theorem adds_withNode {src : Source} {s : State} (hs : Orderly src s) (n : Node) :
    Adds src s (s.withNode n) :=
  .silent hs (List.suffix_refl _) rfl rfl

/-- What is skipped is reported when the statement is given up. -/
theorem adds_synchronize {src : Source} {s : State} (hs : Orderly src s) :
    (synchronize src s).Ends (fun _ s' => Adds src s s') (fun _ => False) True :=
  .silent hs (skipStatement_suffix 0 s.previous s.rest) (by simp [State.errors, Event.error?]) rfl

/-- Elements that were read one behind the other, each behind a token. -/
theorem kept_of_path {src : Source} {ns : List Node} {k : Nat} {rest : List Piece} {s s' : State}
    (hs : Orderly src s) (h : Path ReadsReporting src (elementPieces k ns ++ rest) s s')
    (hrest : ∀ {m}, Orderly src m → Path ReadsReporting src rest m s' → Adds src m s') :
    Adds src s s' ∧ ∀ n ∈ ns, NodeErrorFree src s s' n := by
  induction ns generalizing s with
  | nil => exact ⟨hrest hs h, nofun⟩
  | cons n ns ih =>
      obtain ⟨m, hpassed, m', helement, hmore⟩ := h
      obtain ⟨hbehind, hkept⟩ := ih helement.1.orderly hmore
      have hfirst := (hpassed.kept helement hs).trans hbehind helement.1.orderly
      have hadds := hpassed.1.trans helement.1 hs
      exact ⟨hadds.trans hbehind hs, List.forall_mem_cons.2 ⟨hpassed.1.kept hs hfirst, fun x hx =>
        hadds.kept hs (hkept x hx)⟩⟩

/-- The odd element of a vector that was read stands where no error does. -/
theorem ends_checkUniform {src : Source} {s s' : State} (hadds : Adds src s s')
    {elements : List Node} (hkept : ∀ n ∈ elements, NodeErrorFree src s s' n) :
    (checkUniform elements src s').Ends (fun _ s'' => Adds src s s'') (fun _ => False) False := by
  unfold checkUniform
  split
  · exact hadds
  · rename_i first rest
    cases hodd : rest.find? (·.isGenerator ≠ first.isGenerator) with
    | none => exact hadds
    | some odd =>
      have hk := hkept odd (List.mem_cons_of_mem _ (List.mem_of_find?_eq_some hodd))
      simp only
      unfold report
      split
      · exact hadds
      · rename_i hne
        exact hadds.push (d := ⟨.syntactic, odd.span, mixture⟩)
          (hadds.orderly.logged.back rfl hk.passed.behind rfl hk.passed.free hne) hk.reached

def reportingPieces : Interpretation where
  placed := True
  breaks := True
  start := Orderly
  reads := ReadsReporting
  lost := Adds
  start_reads _ h := h.1.orderly
  lost_behind hs h h' := h.1.trans h' hs
  start_deeper hs := ⟨hs.stop, hs.rising, hs.logged⟩
  reads_leave {src p s s'} h := by
    refine ⟨h.1.at_depth _ _, ?_⟩
    have hspares {o : Int} (ho : LeavesErrorFree src s s' o) :
        LeavesErrorFree src { s with depth := s.depth - 1 } { s' with depth := s'.depth - 1 } o :=
      ⟨ho.reached, fun hfree => ⟨(ho.passed hfree).behind, (ho.passed hfree).free⟩⟩
    cases p with
    | opened | tree => exact ⟨h.2.1, hspares h.2.2⟩
    | element => exact hspares h.2
    | ahead | passed | reported | skipped | trees => exact h.2
  lost_leave h := h.at_depth _ _
  advance hs hr := ⟨(adds_behind hs hr).1, rfl, (adds_behind hs hr).2⟩
  ending hs _ hp := absurd hs.stop (hp trivial)
  passed_append hs h h' := ⟨h.1.trans h'.1 hs, h'.2.1.trans h.2.1, Int.lt_trans h.2.2 h'.2.2⟩
  note hs he := ⟨.silent hs (List.suffix_refl _) (by simp [State.errors, he]) rfl, trivial⟩
  report hs hm := (Adds.report hs (.refl hs) rfl rfl hm rfl).imp (fun _ _ h => ⟨h, trivial⟩)
    (fun _ h => h) False.elim
  unmatched {src s} hs hk := by
    cases hr : s.rest with
    | nil =>
        rw [ahead, hr] at hk
        exact absurd (hs.stop.symm.trans hk) (by simp)
    | cons t rest =>
        rw [dropBrace_cons hr]
        have hdropping : Adds src s s.dropping :=
          .silent hs (List.suffix_refl _) (by simp [State.errors, State.dropping, Event.error?]) rfl
        have hbehind := (adds_behind (s := s.dropping) hdropping.orderly hr).1
        refine (Adds.report hs (hdropping.trans hbehind hs) ?_ rfl (by decide) ?_).imp
          (fun _ _ h => ⟨h, trivial⟩) (fun _ h => h) False.elim
        · simp [State.errors, State.behind, State.dropping, Event.error?]
        · rw [State.here, hr]
          rfl
  give_up _ h := h.1
  passed_reported hs h h' := ⟨h.1.trans h'.1 hs, trivial⟩
  skip hs h _ :=
    (adds_synchronize h.orderly).mono (fun _ _ h' => ⟨h.trans h' hs, trivial⟩) fun _ h => h
  number _ _ := .inr trivial
  trees_nil hs := ⟨.refl hs, trivial⟩
  trees_append hs h h' := ⟨h.1.trans h'.1 hs, trivial⟩
  raise {src p k s s'} h _ := by cases p <;> exact h
  gather h := ⟨h.1, trivial⟩
  element h := ⟨h.1, h.2.2⟩
  enclosed hs h h' h'' := by
    have hinner := h'.2.trans h''.1 h'.1.orderly
    exact ⟨(h.1.trans h'.1 hs).trans h''.1 hs, hinner.behind h.1 h.2.1 hs⟩
  open_passed _ h := ⟨h.1, rfl, h.leavesErrorFree⟩
  open_tree _ h := by
    obtain ⟨hadds, hhere, hspares⟩ := h
    rw [hhere] at hspares
    exact ⟨hadds, rfl, hspares⟩
  opened_append hs h h' := ⟨h.1.trans h'.1 hs, h.2.1, h.2.2.trans h'.1 h.1.orderly⟩
  make hs h _ := ⟨h.1.trans (adds_withNode h.1.orderly _) hs, h.2.1,
    h.2.2.trans (adds_withNode h.1.orderly _) h.1.orderly⟩
  checked {src t ns k l s s'} hs h _ hpath := by
    obtain ⟨_, ⟨hm, -⟩, hpath⟩ := hpath
    rw [hm] at hpath
    cases ns with
    | nil => exact ⟨h.1.trans (adds_withNode h.1.orderly _) hs, h.2.1,
        h.2.2.trans (adds_withNode h.1.orderly _) h.1.orderly⟩
    | cons n ns =>
        -- The vector begins at a token that was consumed before its elements.
        obtain ⟨m, hpassed, m', helement, hpath⟩ := hpath
        have hm := hpassed.1.orderly
        obtain ⟨hmore, hothers⟩ := kept_of_path helement.1.orderly hpath fun _ hrest => by
          obtain ⟨_, hfiles, rfl⟩ := hrest
          exact hfiles.1
        have hmade := adds_withNode hmore.orderly (s'.nextNode src t (.vector (n :: ns)))
        have hkept : ∀ x ∈ n :: ns, NodeErrorFree src m s' x := List.forall_mem_cons.2
          ⟨(hpassed.kept helement hs).trans hmore helement.1.orderly,
            fun x hx => helement.1.kept hm (hothers x hx)⟩
        refine (ends_checkUniform ((helement.1.trans hmore hm).trans hmade hm) fun x hx =>
          (hkept x hx).trans hmade hmore.orderly).imp (fun _ s'' hadds => ?_)
            (fun _ h => h) False.elim
        have hspares : LeavesErrorFree src s s'' t.span.start.offset :=
          h.2.1 ▸ hpassed.leavesErrorFree.trans hadds hm
        exact ⟨hpassed.1.trans hadds hs, h.2.1, hspares⟩
  missing hs h := ⟨h.1.trans (.silent h.1.orderly (List.suffix_refl _) rfl rfl) hs, trivial⟩

/-- The errors of a document stand as they were reported. -/
theorem Produced.logged {spelling : Spelling} {tokens : List Token} {origin : Option String}
    {p : Parsed} {s : State} (h : Produced spelling tokens origin p s)
    (hplaced : Placed (seen tokens origin)) :
    Logged (s.here (source tokens origin)) s.lastErrorAt s.errors := by
  have hstart : Orderly (source tokens origin) (initial tokens origin) :=
    ⟨stop_source tokens origin, hplaced.rising, .nil⟩
  have hbuilds := builds_program (I := reportingPieces) (source tokens origin) _
    (initial tokens origin) hstart rfl
  rw [h.run] at hbuilds
  obtain ⟨_, hfiles, rfl⟩ := hbuilds
  exact hfiles.1.orderly.logged

end Parse

/-- Where the errors of a text stand: mixtures at places of their own, all others in the order
of the text. -/
structure Errors (ds : List Diagnostic) : Prop where
  /-- Two errors at one place are no mixtures and have one between them. -/
  separated : ∀ before d between e behind, ds = before ++ d :: between ++ e :: behind →
    d.offset = e.offset →
    ¬ d.IsMixture ∧ ¬ e.IsMixture ∧ ∃ x ∈ between, x.IsMixture
  rising : ds.Pairwise fun d e => ¬ d.IsMixture → ¬ e.IsMixture → d.offset ≤ e.offset
  increasing : (∀ d ∈ ds, ¬ d.IsMixture) → ds.Pairwise (·.offset < ·.offset)

theorem parse_reports {text name : String} {origin : Option String} {p : Parse.Parsed}
    (h : parse (tokenize text name).tokens origin = .ok p) : Errors p.document.syntaxErrors := by
  obtain ⟨ts, mark, htokens, hended⟩ := ended_tokenize text name
  rw [htokens] at h
  obtain ⟨s, hs⟩ := Parse.produced_of_ok h
  have hlogged := hs.logged (hended.placed_seen origin)
  rw [hs.errors h]
  exact ⟨fun _ _ _ _ _ => hlogged.separated, hlogged.rising, hlogged.increasing⟩

/-- A vector that mixes its elements, not closed and without the semicolon behind it. -/
theorem offsets_mixed : (parse (tokenize "x=[1,each y" "").tokens none).toOption.map
    (·.document.syntaxErrors.map Diagnostic.offset) = some [11, 5, 11] := by decide +kernel

theorem parse_reports_mixed : ∃ p, parse (tokenize "x=[1,each y" "").tokens none = .ok p ∧
    Errors p.document.syntaxErrors := by
  obtain ⟨p, hp, -⟩ := Parse.exists_of_map offsets_mixed
  exact ⟨p, hp, parse_reports hp⟩

/-- Only the last error is remembered, so one before it is reported again. -/
theorem parse_repeats_error : ¬ ∀ (text name : String) (origin : Option String) (p : Parse.Parsed),
    parse (tokenize text name).tokens origin = .ok p →
    (p.document.syntaxErrors.map Diagnostic.offset).Nodup := by
  intro hall
  obtain ⟨p, hp, hoffsets⟩ := Parse.exists_of_map offsets_mixed
  have hnodup := hall _ _ _ p hp
  rw [hoffsets] at hnodup
  exact absurd hnodup (by decide)

end Scad
