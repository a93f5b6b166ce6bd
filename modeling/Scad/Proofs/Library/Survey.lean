import Mathlib.Data.Finset.Card
import Scad.Proofs.Library.Reach

/-! A survey goes through the files that belong to a file as loading does, but keeps nothing and
resolves no name. What it finds does not depend on the files it was told to skip, if none of these
can be reached. -/
namespace Scad.Library

open Load (Reached addMissing setDocument)

/-- A file as it was read, with the files that it refers to, directly or not, and those that
were skipped. -/
structure Survey where
  document : Document
  dependencies : Resolve.Dependencies
  skipped : List Path

def Load.Reached.join (r : Reached) (reference : String) (s : Survey) : Reached :=
  ⟨addMissing (setDocument reference s.document r.dependencies) s.dependencies,
    r.skipped ++ s.skipped⟩

namespace Host

variable (host : Host)

/-- Goes into the file behind one reference, unless it is on the way already. -/
def visit (survey : Path → Except LoadFault Survey) (loading : List Path) (path : Path)
    (r : Reached) (reference : String) : Except LoadFault Reached :=
  match host.target? path reference with
  | none => .ok r
  | some target =>
    if target ∈ loading then .ok { r with skipped := r.skipped ++ [target] }
    else (survey target).map (r.join reference)

def survey (deep : Bool) : (fuel : Nat) → (loading : List Path) → (path : Path) →
    Except LoadFault Survey
  | 0, _, _ => .error .tooDeep
  | fuel + 1, loading, path => do
    let d ← host.read path
    let r ← (followed deep d).foldlM
      (host.visit (survey deep fuel (loading ++ [path])) (loading ++ [path]) path) ⟨[], []⟩
    return ⟨d, r.dependencies, r.skipped.filter (· ≠ path)⟩

end Host

/-! ### Documents by reference -/

section

variable {reference other : String} {d : Document} {deps more : Resolve.Dependencies}
  {e : String × Document}

theorem mem_setDocument (h : e ∈ setDocument reference d deps) : e ∈ deps ∨ e = (reference, d) := by
  induction deps with
  | nil => exact .inr (List.mem_singleton.1 h)
  | cons e' rest ih =>
      rw [setDocument] at h
      split at h
      · rename_i heq
        rcases List.mem_cons.1 h with rfl | h
        · exact .inr (by rw [heq])
        · exact .inl (List.mem_cons_of_mem _ h)
      · rcases List.mem_cons.1 h with rfl | h
        · exact .inl (List.mem_cons_self ..)
        · exact (ih h).imp_left (List.mem_cons_of_mem _)

theorem mem_keys_setDocument :
    other ∈ (setDocument reference d deps).map Prod.fst ↔ other = reference ∨
      other ∈ deps.map Prod.fst := by
  induction deps with
  | nil => simp [setDocument]
  | cons e rest ih =>
      rw [setDocument]
      split
      · rename_i heq
        simp [heq]
      · simp only [List.map_cons, List.mem_cons, ih]
        exact or_left_comm

theorem addMissing_cons : addMissing deps (e :: more) =
    addMissing (if e.1 ∈ deps.map Prod.fst then deps else deps ++ [e]) more := by
  have hfind : (Resolve.Dependencies.find? deps e.1).isSome ↔ e.1 ∈ deps.map Prod.fst := by
    rw [Resolve.Dependencies.find?, Option.isSome_map, List.find?_isSome]
    simp
  rw [addMissing, List.foldl_cons, addMissing]
  simp only [hfind]

theorem mem_addMissing (h : e ∈ addMissing deps more) : e ∈ deps ∨ e ∈ more := by
  induction more generalizing deps with
  | nil => exact .inl h
  | cons e' rest ih =>
      rw [addMissing_cons] at h
      rcases ih h with h | h
      · split at h
        · exact .inl h
        · rcases List.mem_append.1 h with h | h
          · exact .inl h
          · exact .inr (List.mem_cons.2 (.inl (List.mem_singleton.1 h)))
      · exact .inr (List.mem_cons_of_mem _ h)

theorem mem_keys_addMissing : other ∈ (addMissing deps more).map Prod.fst ↔
    other ∈ deps.map Prod.fst ∨ other ∈ more.map Prod.fst := by
  induction more generalizing deps with
  | nil => simp [addMissing]
  | cons e rest ih =>
      rw [addMissing_cons, ih, List.map_cons, List.mem_cons]
      split
      · rename_i hin
        constructor
        · exact fun h => h.imp_right .inr
        · rintro (h | rfl | h)
          · exact .inl h
          · exact .inl hin
          · exact .inr h
      · simp [or_assoc]

end

structure Load.Reached.Grows (r r' : Reached) : Prop where
  references : r.dependencies.map Prod.fst ⊆ r'.dependencies.map Prod.fst
  skipped : r.skipped ⊆ r'.skipped

namespace Load.Reached.Grows

theorem refl (r : Reached) : Grows r r := ⟨fun _ h => h, fun _ h => h⟩

theorem trans {a b c : Reached} (h : Grows a b) (h' : Grows b c) : Grows a c :=
  ⟨fun _ hk => h'.references (h.references hk), fun _ hq => h'.skipped (h.skipped hq)⟩

theorem skip (r : Reached) (t : Path) : Grows r ⟨r.dependencies, r.skipped ++ [t]⟩ :=
  ⟨fun _ h => h, List.subset_append_left _ _⟩

theorem join (r : Reached) (reference : String) (s : Survey) : Grows r (r.join reference s) :=
  ⟨fun _ h => mem_keys_addMissing.2 (.inl (mem_keys_setDocument.2 (.inr h))),
    List.subset_append_left _ _⟩

end Load.Reached.Grows

/-- What a fold does at each member, and what holds of its steps and so of the whole. -/
theorem foldlM_ok {α β ε : Type} {f : β → α → Except ε β} {R : β → β → Prop} (hrefl : ∀ b, R b b)
    (htrans : ∀ {a b c}, R a b → R b c → R a c) {as : List α}
    (hstep : ∀ a ∈ as, ∀ b b', f b a = .ok b' → R b b') {b b' : β} (h : as.foldlM f b = .ok b') :
    R b b' ∧ ∀ a ∈ as, ∃ c c', f c a = .ok c' ∧ R c' b' := by
  induction as generalizing b with
  | nil =>
      cases h
      exact ⟨hrefl _, fun a ha => absurd ha List.not_mem_nil⟩
  | cons a as ih =>
      rw [List.foldlM_cons] at h
      cases hf : f b a with
      | error e =>
          rw [hf] at h
          cases h
      | ok c =>
          rw [hf] at h
          obtain ⟨hrest, hmem⟩ := ih (fun a ha => hstep a (List.mem_cons_of_mem _ ha)) h
          refine ⟨htrans (hstep a (List.mem_cons_self ..) b c hf) hrest, fun a' ha' => ?_⟩
          rcases List.mem_cons.1 ha' with rfl | ha'
          · exact ⟨b, c, hf, hrest⟩
          · exact hmem a' ha'

theorem foldlM_error {α β ε : Type} {f : β → α → Except ε β} {as : List α} {b : β} {e : ε}
    (h : as.foldlM f b = .error e) : ∃ a ∈ as, ∃ c, f c a = .error e := by
  induction as generalizing b with
  | nil => cases h
  | cons a as ih =>
      rw [List.foldlM_cons] at h
      cases hf : f b a with
      | error e' =>
          rw [hf] at h
          cases h
          exact ⟨a, List.mem_cons_self .., b, hf⟩
      | ok c =>
          rw [hf] at h
          obtain ⟨a', ha', hc⟩ := ih h
          exact ⟨a', List.mem_cons_of_mem _ ha', hc⟩

theorem foldlM_congr {α β ε : Type} {f g : β → α → Except ε β} {as : List α}
    (h : ∀ a ∈ as, ∀ b, f b a = g b a) (b : β) : as.foldlM f b = as.foldlM g b := by
  induction as generalizing b with
  | nil => rfl
  | cons a as ih =>
      rw [List.foldlM_cons, List.foldlM_cons, h a (List.mem_cons_self ..)]
      exact congrArg (g b a >>= ·)
        (funext fun c => ih (fun a ha => h a (List.mem_cons_of_mem _ ha)) c)

namespace Host

variable {host : Host} {deep : Bool} {fuel fuel' : Nat} {loading loading' : List Path}
  {p x : Path} {s : Survey}

/-! ### What a survey finds -/

theorem visit_cases {survey : Path → Except LoadFault Survey} {r r' : Reached} {reference : String}
    (h : host.visit survey loading p r reference = .ok r') :
    (host.target? p reference = none ∧ r' = r) ∨
    (∃ t ∈ loading, host.target? p reference = some t ∧ r' = ⟨r.dependencies, r.skipped ++ [t]⟩) ∨
    ∃ t s, host.target? p reference = some t ∧ t ∉ loading ∧ survey t = .ok s ∧
      r' = r.join reference s := by
  rw [visit] at h
  cases ht : host.target? p reference with
  | none =>
      rw [ht] at h
      cases h
      exact .inl ⟨rfl, rfl⟩
  | some t =>
      rw [ht] at h
      dsimp only at h
      split at h
      · rename_i hin
        cases h
        exact .inr (.inl ⟨t, hin, rfl, rfl⟩)
      · rename_i hout
        cases hs : survey t with
        | error e =>
            rw [hs] at h
            cases h
        | ok s =>
            rw [hs] at h
            cases h
            exact .inr (.inr ⟨t, s, rfl, hout, hs, rfl⟩)

theorem visit_error {survey : Path → Except LoadFault Survey} {r : Reached} {reference : String}
    {e : LoadFault} (h : host.visit survey loading p r reference = .error e) :
    ∃ t ∉ loading, survey t = .error e := by
  rw [visit] at h
  cases ht : host.target? p reference with
  | none =>
      rw [ht] at h
      cases h
  | some t =>
      rw [ht] at h
      dsimp only at h
      split at h
      · cases h
      · rename_i hout
        cases hs : survey t with
        | ok s =>
            rw [hs] at h
            cases h
        | error e' =>
            rw [hs] at h
            cases h
            exact ⟨t, hout, hs⟩

theorem visit_congr {host' : Host} {survey survey' : Path → Except LoadFault Survey}
    {reference : String} (htarget : host.target? p = host'.target? p)
    (h : ∀ t, host.target? p reference = some t → (t ∈ loading ↔ t ∈ loading') ∧
      (t ∉ loading → survey t = survey' t)) (r : Reached) :
    host.visit survey loading p r reference = host'.visit survey' loading' p r reference := by
  rw [visit, visit, ← htarget]
  cases ht : host.target? p reference with
  | none => rfl
  | some t =>
      obtain ⟨hmem, hsurvey⟩ := h t ht
      dsimp only
      by_cases hin : t ∈ loading
      · rw [if_pos hin, if_pos (hmem.1 hin)]
      · rw [if_neg hin, if_neg (mt hmem.2 hin), hsurvey hin]

/-- What a survey finds at one level: what a reference leads to, or what was found there. -/
def Found (host : Host) (deep : Bool) (fuel : Nat) (loading : List Path) (p : Path)
    (e : String × Document) : Prop :=
  ∃ t below, host.survey deep fuel (loading ++ [p]) t = .ok below ∧
    ((e.2 = below.document ∧ host.Refers deep p e.1 t) ∨
    (e ∈ below.dependencies ∧ host.Leads deep p t))

/-- One level of a survey. -/
structure Visits (host : Host) (deep : Bool) (fuel : Nat) (loading : List Path) (p : Path)
    (s : Survey) : Prop where
  read : host.read p = .ok s.document
  found : ∀ e ∈ s.dependencies, Found host deep fuel loading p e
  skips : ∀ t, host.Leads deep p t → t ∈ loading ++ [p] → t ≠ p → t ∈ s.skipped
  enters : ∀ reference t, host.Refers deep p reference t → t ∉ loading ++ [p] →
    ∃ below, host.survey deep fuel (loading ++ [p]) t = .ok below ∧
      reference ∈ s.dependencies.map Prod.fst ∧
      below.dependencies.map Prod.fst ⊆ s.dependencies.map Prod.fst ∧
      ∀ q ∈ below.skipped, q ≠ p → q ∈ s.skipped

/-- A visit adds to what was reached, and only what its reference leads to. -/
theorem visit_step {r r' : Reached} {reference : String} {d : Document} (hd : host.read p = .ok d)
    (href : reference ∈ followed deep d)
    (h : host.visit (host.survey deep fuel (loading ++ [p])) (loading ++ [p]) p r reference =
      .ok r') :
    Reached.Grows r r' ∧ ((∀ e ∈ r.dependencies, Found host deep fuel loading p e) →
      ∀ e ∈ r'.dependencies, Found host deep fuel loading p e) := by
  rcases visit_cases h with ⟨-, rfl⟩ | ⟨t, -, -, rfl⟩ | ⟨t, s, ht, -, hs, rfl⟩
  · exact ⟨.refl _, id⟩
  · exact ⟨.skip r t, id⟩
  · have hrefers : host.Refers deep p reference t := ⟨d, hd, href, ht⟩
    refine ⟨.join r reference s, fun hall e he => ?_⟩
    rcases mem_addMissing he with he | he
    · rcases mem_setDocument he with he | rfl
      · exact hall e he
      · exact ⟨t, s, hs, .inl ⟨rfl, hrefers⟩⟩
    · exact ⟨t, s, hs, .inr ⟨he, reference, hrefers⟩⟩

theorem survey_of_read {d : Document} (h : host.read p = .ok d) :
    host.survey deep (fuel + 1) loading p = ((followed deep d).foldlM
      (host.visit (host.survey deep fuel (loading ++ [p])) (loading ++ [p]) p) ⟨[], []⟩).map
      fun r => ⟨d, r.dependencies, r.skipped.filter (· ≠ p)⟩ := by
  rw [survey, h]
  simp only [bind, Except.bind]
  cases (followed deep d).foldlM
    (host.visit (host.survey deep fuel (loading ++ [p])) (loading ++ [p]) p) ⟨[], []⟩ <;> rfl

theorem survey_of_error {e : LoadFault} (h : host.read p = .error e) :
    host.survey deep (fuel + 1) loading p = .error e := by
  rw [survey, h]
  rfl

theorem exists_of_survey (h : host.survey deep (fuel + 1) loading p = .ok s) :
    ∃ r, host.read p = .ok s.document ∧ (followed deep s.document).foldlM
      (host.visit (host.survey deep fuel (loading ++ [p])) (loading ++ [p]) p) ⟨[], []⟩ = .ok r ∧
      s.dependencies = r.dependencies ∧ s.skipped = r.skipped.filter (· ≠ p) := by
  cases hread : host.read p with
  | error e =>
      rw [survey_of_error hread] at h
      cases h
  | ok d =>
      rw [survey_of_read hread] at h
      cases hfold : (followed deep d).foldlM
          (host.visit (host.survey deep fuel (loading ++ [p])) (loading ++ [p]) p) ⟨[], []⟩ with
      | error e =>
          rw [hfold] at h
          cases h
      | ok r =>
          rw [hfold] at h
          cases h
          exact ⟨r, rfl, hfold, rfl, rfl⟩

theorem visits_of_survey (h : host.survey deep (fuel + 1) loading p = .ok s) :
    Visits host deep fuel loading p s := by
  obtain ⟨r, hread, hfold, hdeps, hskipped⟩ := exists_of_survey h
  obtain ⟨⟨-, hfound⟩, hmem⟩ := foldlM_ok
    (R := fun r r' => Reached.Grows r r' ∧
      ((∀ e ∈ r.dependencies, Found host deep fuel loading p e) → ∀ e ∈ r'.dependencies,
      Found host deep fuel loading p e))
    (fun r => ⟨.refl r, id⟩) (fun hab hbc => ⟨hab.1.trans hbc.1, hbc.2 ∘ hab.2⟩)
    (fun reference href _ _ hvisit => visit_step hread href hvisit) hfold
  -- A reference is followed at some point, and what it adds stays.
  have hfollowed : ∀ reference t, host.Refers deep p reference t → ∃ c c',
    host.target? p reference = some t ∧
      host.visit (host.survey deep fuel (loading ++ [p])) (loading ++ [p]) p c reference = .ok c' ∧
      Reached.Grows c' r := by
    intro reference t hrefers
    obtain ⟨d, hd, href, ht⟩ := hrefers
    obtain rfl : s.document = d := Except.ok.inj (hread.symm.trans hd)
    obtain ⟨c, c', hvisit, hgrows, -⟩ := hmem reference href
    exact ⟨c, c', ht, hvisit, hgrows⟩
  constructor
  case read => exact hread
  case found =>
    rw [hdeps]
    exact hfound fun e he => absurd he List.not_mem_nil
  case skips =>
    intro t hlead hin hne
    obtain ⟨reference, hrefers⟩ := hlead
    obtain ⟨c, c', ht, hvisit, hgrows⟩ := hfollowed reference t hrefers
    rcases visit_cases hvisit with ⟨hnone, -⟩ | ⟨t', -, ht', rfl⟩ | ⟨t', -, ht', hout, -⟩
    · rw [ht] at hnone
      cases hnone
    · obtain rfl : t = t' := Option.some.inj (ht.symm.trans ht')
      rw [hskipped]
      refine List.mem_filter.2 ⟨hgrows.skipped ?_, by simpa using hne⟩
      exact List.mem_append_right _ (List.mem_singleton_self _)
    · obtain rfl : t = t' := Option.some.inj (ht.symm.trans ht')
      exact absurd hin hout
  case enters =>
    intro reference t hrefers hnew
    obtain ⟨c, c', ht, hvisit, hgrows⟩ := hfollowed reference t hrefers
    rcases visit_cases hvisit with ⟨hnone, -⟩ | ⟨t', hin, ht', -⟩ | ⟨t', below, ht', -, hs, rfl⟩
    · rw [ht] at hnone
      cases hnone
    · obtain rfl : t = t' := Option.some.inj (ht.symm.trans ht')
      exact absurd hin hnew
    · obtain rfl : t = t' := Option.some.inj (ht.symm.trans ht')
      rw [hdeps, hskipped]
      refine ⟨below, hs, hgrows.references ?_, fun k hk => hgrows.references ?_, fun q hq hne => ?_⟩
      · exact mem_keys_addMissing.2 (.inl (mem_keys_setDocument.2 (.inl rfl)))
      · exact mem_keys_addMissing.2 (.inr hk)
      · exact List.mem_filter.2 ⟨hgrows.skipped (List.mem_append_right _ hq), by simpa using hne⟩

theorem read_of_survey (h : host.survey deep fuel loading p = .ok s) :
    host.read p = .ok s.document := by
  cases fuel with
  | zero => cases h
  | succ fuel => exact (visits_of_survey h).read

/-- Every document that is found is that of a file that was reached, under a text that
means this file. -/
theorem survey_sound (h : host.survey deep fuel loading p = .ok s) : ∀ e ∈ s.dependencies,
    ∃ q x, host.Reaches deep p q ∧ host.Refers deep q e.1 x ∧ host.read x = .ok e.2 := by
  induction fuel generalizing loading p s with
  | zero => cases h
  | succ fuel ih =>
      intro e he
      obtain ⟨t, below, hbelow, hcases⟩ := (visits_of_survey h).found e he
      rcases hcases with ⟨hdocument, hrefers⟩ | ⟨hin, hlead⟩
      · refine ⟨p, t, .refl, hrefers, ?_⟩
        rw [hdocument, read_of_survey hbelow]
      · obtain ⟨q, x, hq, hrest⟩ := ih hbelow e hin
        exact ⟨q, x, hlead.reaches.trans hq, hrest⟩

/-- Every file that is reached past the skipped ones is found under some reference to it. -/
theorem survey_complete (h : host.survey deep fuel loading p = .ok s)
    (hx : host.ReachesPast deep loading p x) (hne : x ≠ p) :
    ∃ q reference, host.Reaches deep p q ∧ host.Refers deep q reference x ∧
      reference ∈ s.dependencies.map Prod.fst := by
  induction fuel generalizing loading p s with
  | zero => cases h
  | succ fuel ih =>
      rcases hx.cases with rfl | ⟨t, ⟨reference, hrefers⟩, hnew, hrest⟩
      · exact absurd rfl hne
      · obtain ⟨below, hbelow, href, hkeys, -⟩ :=
          (visits_of_survey h).enters reference t hrefers hnew
        by_cases hxt : x = t
        · subst hxt
          exact ⟨p, reference, .refl, hrefers, href⟩
        · obtain ⟨q, other, hq, hother, hmem⟩ := ih hbelow hrest hxt
          exact ⟨q, other, (Leads.reaches ⟨reference, hrefers⟩).trans hq, hother, hkeys hmem⟩

/-- A survey that skipped no file cannot reach any that it was to skip. -/
theorem skipped_of_enters {y z : Path} (h : host.survey deep fuel loading p = .ok s)
    (hp : p ∉ loading) (hy : host.ReachesPast deep loading p y) (hz : host.Leads deep y z)
    (hin : z ∈ loading) : z ∈ s.skipped := by
  induction fuel generalizing loading p s with
  | zero => cases h
  | succ fuel ih =>
      have hzp : z ≠ p := fun he => hp (he ▸ hin)
      rcases hy.cases with rfl | ⟨t, ⟨reference, hrefers⟩, hnew, hrest⟩
      · exact (visits_of_survey h).skips z hz (List.mem_append_left _ hin) hzp
      · obtain ⟨below, hbelow, -, -, hskips⟩ := (visits_of_survey h).enters reference t hrefers hnew
        exact hskips z (ih hbelow hnew hrest (List.mem_append_left _ hin)) hzp

/-! ### The bound on the depth -/

/-- The paths under which files can be found; each has a form with two slashes in front. -/
def places (host : Host) : List Path :=
  host.files.files.flatMap fun e => [⟨false, e.1⟩, ⟨true, e.1⟩]

def unseen (host : Host) (loading : List Path) : Finset Path :=
  host.places.toFinset \ loading.toFinset

theorem unseen_lt_depth (host : Host) (loading : List Path) :
    (host.unseen loading).card < host.depth := by
  have hlength : host.places.length = 2 * host.files.files.length := by
    simp [places, List.length_flatMap, Nat.mul_comm]
  calc (host.unseen loading).card ≤ host.places.toFinset.card :=
    Finset.card_le_card Finset.sdiff_subset
    _ ≤ host.places.length := List.toFinset_card_le _
    _ < host.depth := by rw [hlength, depth]; omega

theorem mem_places_of_file {file : File} (h : host.files.file? p.names = some file) :
    p ∈ host.places := by
  obtain ⟨before, after, hfiles, -⟩ := List.lookup_eq_some_iff.1 h
  refine List.mem_flatMap.2 ⟨(p.names, file), ?_, ?_⟩
  · rw [hfiles]
    exact List.mem_append_right _ (List.mem_cons_self ..)
  · obtain ⟨doubled, names⟩ := p
    cases doubled <;> simp

theorem mem_places {d : Document} (h : host.read p = .ok d) : p ∈ host.places := by
  obtain ⟨hfile, -⟩ := parsed_of_read h
  obtain ⟨file, hfile⟩ := Option.isSome_iff_exists.1 hfile
  exact mem_places_of_file hfile

theorem unseen_append_lt_of_mem (h : p ∈ host.places) (hp : p ∉ loading) :
    (host.unseen (loading ++ [p])).card < (host.unseen loading).card := by
  refine Finset.card_lt_card (Finset.ssubset_iff_of_subset ?_ |>.2 ⟨p, ?_, ?_⟩)
  · exact Finset.sdiff_subset_sdiff (Finset.Subset.refl _) fun q hq =>
      List.mem_toFinset.2 (List.mem_append_left _ (List.mem_toFinset.1 hq))
  · simp [unseen, h, hp]
  · simp [unseen]

theorem unseen_append_lt {d : Document} (h : host.read p = .ok d) (hp : p ∉ loading) :
    (host.unseen (loading ++ [p])).card < (host.unseen loading).card :=
  unseen_append_lt_of_mem (mem_places h) hp

/-- A survey looks only at files that can be reached, and there is depth enough for all of them. -/
theorem survey_congr {host' : Host}
    (hread : ∀ x, host.Reaches deep p x → host.read x = host'.read x)
    (htarget : ∀ x, host.target? x = host'.target? x) (hfuel : (host.unseen loading).card < fuel)
    (hfuel' : (host'.unseen loading').card < fuel') (hp : p ∉ loading) (hp' : p ∉ loading')
    (h : ∀ x, host.Reaches deep p x → (x ∈ loading ↔ x ∈ loading')) :
    host.survey deep fuel loading p = host'.survey deep fuel' loading' p := by
  induction fuel generalizing fuel' loading loading' p with
  | zero => exact absurd hfuel (Nat.not_lt_zero _)
  | succ fuel ih =>
      cases fuel' with
      | zero => exact absurd hfuel' (Nat.not_lt_zero _)
      | succ fuel' =>
          have hsame := hread p .refl
          cases hd : host.read p with
          | error e => rw [survey_of_error hd, survey_of_error (hsame.symm.trans hd)]
          | ok d =>
              have hless := unseen_append_lt hd hp
              have hless' := unseen_append_lt (hsame.symm.trans hd) hp'
              have hmem : ∀ x, host.Reaches deep p x →
                  (x ∈ loading ++ [p] ↔ x ∈ loading' ++ [p]) := by
                intro x hx
                rw [List.mem_append, List.mem_append, h x hx]
              rw [survey_of_read hd, survey_of_read (hsame.symm.trans hd)]
              refine congrArg (Except.map _) (foldlM_congr (fun reference href r => ?_) _)
              refine visit_congr (htarget p) (fun t ht => ?_) r
              have hlead : host.Reaches deep p t := Leads.reaches ⟨reference, d, hd, href, ht⟩
              constructor
              · exact hmem t hlead
              · intro hin
                have hin' := mt (hmem t hlead).2 hin
                exact ih (fun x hx => hread x (hlead.trans hx)) (by omega) (by omega) hin hin'
                  fun x hx => hmem x (hlead.trans hx)

/-- A survey does not run out of depth. -/
theorem survey_ne_tooDeep (hfuel : (host.unseen loading).card < fuel) (hp : p ∉ loading) :
    host.survey deep fuel loading p ≠ .error .tooDeep := by
  induction fuel generalizing loading p with
  | zero => exact absurd hfuel (Nat.not_lt_zero _)
  | succ fuel ih =>
      intro h
      cases hd : host.read p with
      | error e =>
          rw [survey_of_error hd] at h
          cases h
          exact read_ne_tooDeep p hd
      | ok d =>
          rw [survey_of_read hd] at h
          have hless := unseen_append_lt hd hp
          cases hfold : (followed deep d).foldlM
              (host.visit (host.survey deep fuel (loading ++ [p])) (loading ++ [p]) p) ⟨[], []⟩ with
          | ok r =>
              rw [hfold] at h
              cases h
          | error e =>
              rw [hfold] at h
              cases h
              obtain ⟨reference, -, r, hvisit⟩ := foldlM_error hfold
              obtain ⟨t, hnew, hbelow⟩ := visit_error hvisit
              exact ih (by omega) hnew hbelow

/-- A file whose survey skipped nothing would be surveyed alone in the same way. -/
theorem survey_alone (h : host.survey deep fuel loading p = .ok s) (hskipped : s.skipped = [])
    (hfuel : (host.unseen loading).card < fuel) (hp : p ∉ loading) :
    host.survey deep host.depth [] p = .ok s := by
  rw [← h]
  refine survey_congr (fun _ _ => rfl) (fun _ => rfl) (unseen_lt_depth host []) hfuel
    List.not_mem_nil hp
    fun x hx => ?_
  constructor
  · exact fun hin => absurd hin List.not_mem_nil
  · intro hin
    obtain ⟨y, z, hy, hz, hzin⟩ := hx.enters hp hin
    have := skipped_of_enters h hp hy hz hzin
    rw [hskipped] at this
    exact absurd this List.not_mem_nil

/-- A file that was surveyed alone would be surveyed in the same way on the way from files that it
does not rest on. -/
theorem survey_within (h : host.survey deep host.depth [] p = .ok s) (hu : host.Unambiguous deep p)
    (hfuel : (host.unseen loading).card < fuel) (hp : p ∉ loading)
    (hrest : ∀ e ∈ s.dependencies, ∀ q ∈ loading, q.text ≠ e.2.origin) :
    host.survey deep fuel loading p = .ok s := by
  rw [← h]
  refine survey_congr (fun _ _ => rfl) (fun _ => rfl) hfuel (unseen_lt_depth host []) hp
    List.not_mem_nil
    fun x hx => ?_
  refine ⟨fun hin => ?_, fun hin => absurd hin List.not_mem_nil⟩
  have hne : x ≠ p := fun he => hp (he ▸ hin)
  obtain ⟨q, reference, hq, hrefers, hmem⟩ := survey_complete h hx.past hne
  obtain ⟨e, he, rfl⟩ := List.mem_map.1 hmem
  obtain ⟨q', x', hq', hrefers', hread⟩ := survey_sound h e he
  obtain rfl : x = x' := hu q q' e.1 x x' hq hq' hrefers hrefers'
  exact absurd (read_spec hread).1.symm (hrest e he x hin)

end Host

end Scad.Library
