import Scad.Proofs.Library.Survey
import Scad.Proofs.Resolve.Unbound

/-! A kept document is the one that its file gives when it is loaded alone, so that loading finds
what a survey finds, whatever is kept. -/
namespace Scad.Library

open Load (Reached addMissing setDocument)

/-! ### Loading step by step -/

namespace Load

variable {α β : Type}

def outcome (x : Load α) (s : LoadState) : Except LoadFault α := (x.run.run s).1

def after (x : Load α) (s : LoadState) : LoadState := (x.run.run s).2

theorem run_bind (x : Load α) (f : α → Load β) (s : LoadState) : (x >>= f).run.run s =
    match x.run.run s with
    | (.ok a, s') => (f a).run.run s'
    | (.error e, s') => (.error e, s') := by
  rw [ExceptT.run_bind, StateT.run_bind]
  cases h : x.run.run s with
  | mk r s' => cases r <;> rfl

/-- Loading keeps a property of states and gives an outcome of some kind. -/
def Keeps (I : LoadState → Prop) (x : Load α) (Q : Except LoadFault α → Prop) : Prop :=
  ∀ s, I s → I (x.after s) ∧ Q (x.outcome s)

namespace Keeps

variable {I : LoadState → Prop} {P Q : Except LoadFault α → Prop} {R : Except LoadFault β → Prop}

theorem pure {a : α} (h : Q (.ok a)) : Keeps I (Pure.pure a) Q := fun _ hs => ⟨hs, h⟩

theorem throw {e : LoadFault} (h : Q (.error e)) : Keeps I (MonadExcept.throw e) Q :=
  fun _ hs => ⟨hs, h⟩

theorem mono {x : Load α} (hx : Keeps I x P) (h : ∀ r, P r → Q r) : Keeps I x Q :=
  fun s hs => ⟨(hx s hs).1, h _ (hx s hs).2⟩

theorem bind {x : Load α} {f : α → Load β} (hx : Keeps I x P)
    (hf : ∀ a, P (.ok a) → Keeps I (f a) R) (he : ∀ e, P (.error e) → R (.error e)) :
    Keeps I (x >>= f) R := by
  intro s hs
  obtain ⟨hs', hP⟩ := hx s hs
  rw [after, outcome, run_bind]
  rw [after] at hs'
  rw [outcome] at hP
  cases h : x.run.run s with
  | mk r s' =>
      rw [h] at hs' hP
      cases r with
      | error e => exact ⟨hs', he e hP⟩
      | ok a => exact hf a hP s' hs'

/-- A step that cannot fail. -/
theorem bind_ok {x : Load α} {f : α → Load β} {V : α → Prop}
    (hx : Keeps I x fun r => ∃ a, r = .ok a ∧ V a) (hf : ∀ a, V a → Keeps I (f a) R) :
    Keeps I (x >>= f) R := by
  apply hx.bind
  · rintro a ⟨_, ⟨⟩, ha⟩
    exact hf a ha
  · rintro e ⟨a, he, -⟩
    cases he

/-- A step with one possible value. -/
theorem next {x : Load α} {f : α → Load β} {a : α} (hx : Keeps I x (· = .ok a))
    (hf : Keeps I (f a) R) :
    Keeps I (x >>= f) R :=
  (hx.mono fun _ hr => ⟨a, hr, rfl⟩ : Keeps I x fun r => ∃ b, r = .ok b ∧ b = a).bind_ok fun _ hb =>
    hb ▸ hf

theorem get_bind {f : LoadState → Load α} (h : ∀ s, I s → I ((f s).after s) ∧ Q ((f s).outcome s)) :
    Keeps I (MonadState.get >>= f) Q := h

theorem modify {f : LoadState → LoadState} (hf : ∀ s, I s → I (f s)) :
    Keeps I (MonadState.modifyGet fun s => (PUnit.unit, f s)) (· = .ok ⟨⟩) :=
  fun s hs => ⟨hf s hs, rfl⟩

theorem liftExcept {e : Except LoadFault α} (h : Q e) : Keeps I (loadPath.liftExcept e) Q := by
  cases e with
  | ok a => exact pure h
  | error f => exact throw h

end Keeps

end Load

open Load (Keeps)

/-! ### Rules for loading -/

/-- A document was kept under a key, with a time of change. -/
def WasKept (I : LoadState → Prop) (key : CacheKey) (modified : Int) (loaded : Loaded) : Prop :=
  ∃ s, I s ∧ (key, ⟨loaded, modified⟩) ∈ s.cache

def loadedFrom (options : LoadOptions) (p : Path) (d : Document) (serial : Nat)
    (reached : Reached) :
    Loaded × List Path :=
  (⟨serial, (resolve d reached.dependencies options.builtins).document, reached.dependencies⟩,
    reached.skipped.filter (· ≠ p))

section

/-! The property of states is about the kept documents, and holds of fewer of them. -/

variable {I : LoadState → Prop} (hI : ∀ s s', s'.cache ⊆ s.cache → I s → I s') {host : Host}
  {options : LoadOptions} {loading : List Path} {p : Path}

include hI

theorem keeps_debug (message : String) : Keeps I (Load.debug message) (· = .ok ⟨⟩) :=
  .modify fun s => hI s _ fun _ he => he

theorem keeps_warn (message : String) : Keeps I (Load.warn message) (· = .ok ⟨⟩) :=
  .modify fun s => hI s _ fun _ he => he

theorem keeps_find (asker reference : String) :
    Keeps I (Load.find host asker reference) (· = .ok (host.find? asker reference)) := by
  unfold Load.find
  cases host.find? asker reference with
  | none => exact (keeps_debug hI _).next (.pure rfl)
  | some place => exact (keeps_debug hI _).next (.pure rfl)

/-- A kept document is used only if it was kept for this time, and rests on no file that is
being loaded. -/
theorem keeps_kept (key : CacheKey) (modified : Int) :
    Keeps I (Load.kept key modified loading) fun r => ∃ found, r = .ok found ∧
      ∀ loaded ∈ found, Load.restsOn loading loaded = false ∧ WasKept I key modified loaded := by
  have hnone : ∃ found, (Except.ok none : Except LoadFault (Option Loaded)) = .ok found ∧
      ∀ loaded ∈ found, Load.restsOn loading loaded = false ∧ WasKept I key modified loaded :=
    ⟨none, rfl, fun _ h => absurd h (Option.not_mem_none _)⟩
  unfold Load.kept
  refine .get_bind fun s hs => ?_
  cases hlookup : s.cache.lookup key with
  | none => exact ⟨hs, hnone⟩
  | some k =>
      dsimp only
      split
      · exact ⟨hI s _ (List.filter_subset_self _) hs, hnone⟩
      · rename_i hmodified
        split
        · exact ⟨hI s _ (fun _ he => he) hs, hnone⟩
        · rename_i hrest
          refine ⟨hI s _ (fun _ he => he) hs, some k.loaded, rfl, fun loaded hloaded => ?_⟩
          cases hloaded
          obtain ⟨before, after, hcache, -⟩ := List.lookup_eq_some_iff.1 hlookup
          refine ⟨by simpa using hrest, s, hs, ?_⟩
          rw [hcache, ← not_not.1 hmodified]
          exact List.mem_append_right _ (List.mem_cons_self ..)

theorem keeps_makeDocument (d : Document) (deps : Resolve.Dependencies) :
    Keeps I (Load.makeDocument d deps) fun r => ∃ loaded, r = .ok loaded ∧ ∃ serial,
      loaded = ⟨serial, d, deps⟩ :=
  fun s hs => ⟨hI s _ (fun _ he => he) hs, ⟨s.made, d, deps⟩, rfl, s.made, rfl⟩

/-- Following a reference leads nowhere, is skipped, or loads what it names. -/
theorem keeps_follow {load : Path → Load (Loaded × List Path)} {r : Reached} {reference : String}
    {P : Except LoadFault Reached → Prop} (hnone : host.target? p reference = none → P (.ok r))
    (hskip : ∀ t ∈ loading, host.target? p reference = some t →
      P (.ok ⟨r.dependencies, r.skipped ++ [t]⟩))
    (hload : ∀ t ∉ loading, host.target? p reference = some t →
      Keeps I (load t) fun x => P (x.map (r.add reference))) :
    Keeps I (Load.follow host load loading p r reference) P := by
  unfold Load.follow
  refine (keeps_find hI p.text reference).next ?_
  have htarget : host.target? p reference = (host.find? p.text reference).map host.path := rfl
  cases hfind : host.find? p.text reference with
  | none =>
      rw [hfind] at htarget
      exact (keeps_warn hI _).next (.pure (hnone htarget))
  | some place =>
      rw [hfind] at htarget
      dsimp only
      split
      · rename_i hin
        exact (keeps_debug hI _).next (.pure (hskip _ hin htarget))
      · rename_i hout
        exact (hload _ hout htarget).bind (fun found hfound => .pure hfound) fun e he => he

/-- Loading a file finds it kept, fails to read it, or goes through its references. -/
theorem keeps_loadPath {fuel : Nat} {Q : Except LoadFault (Loaded × List Path) → Prop}
    (hhit : ∀ file loaded, host.files.file? p.names = some file →
      Load.restsOn loading loaded = false → WasKept I ⟨p, options⟩ file.modified loaded → Q
    (.ok (loaded, []))) (hunread : ∀ e, host.read p = .error e → Q (.error e))
    (hread : ∀ d, host.read p = .ok d → Keeps I ((Host.followed options.withDependencies d).foldlM
        (Load.follow host (Load.loadPath host options fuel (loading ++ [p])) (loading ++ [p]) p)
          ⟨[], []⟩) fun x =>
      (∀ e, x = .error e → Q (.error e)) ∧ ∀ reached serial, x = .ok reached →
        Q (.ok (loadedFrom options p d serial reached)) ∧
        ((loadedFrom options p d serial reached).2 = [] → ∀ s modified, I s →
          I (s.keep ⟨p, options⟩ ⟨(loadedFrom options p d serial reached).1, modified⟩))) :
    Keeps I (Load.loadPath host options (fuel + 1) loading p) Q := by
  rw [Load.loadPath]
  cases hfile : host.files.file? p.names with
  | none =>
      exact Keeps.next (.modify fun s => hI s _ (List.filter_subset_self _))
        (.throw (hunread _ (Host.read_of_missing hfile)))
  | some file =>
      refine (keeps_kept hI ⟨p, options⟩ file.modified).bind_ok fun found hfound => ?_
      cases found with
      | some loaded =>
          obtain ⟨hrest, hkept⟩ := hfound loaded rfl
          exact .pure (hhit file loaded hfile hrest hkept)
      | none =>
          have hfound := Host.read_of_file hfile
          refine Keeps.bind (.liftExcept (Q := (· = Load.sourceText file)) rfl)
            (fun source hsource => ?_) (fun e he => ?_)
          · rw [← hsource] at hfound
            refine Keeps.bind
              (.liftExcept (Q := (· = (parseText source p.text).mapError .numeral)) rfl)
              (fun x hx => ?_) (fun e he => ?_)
            · replace hfound : host.read p = .ok x.2.document := by
                rw [hfound, Except.bind, ← hx]
                rfl
              refine (hread _ hfound).bind (fun reached hreached => ?_) fun e he => he.1 e rfl
              refine Keeps.next (.modify fun s => hI s _ fun _ he => he) ?_
              refine (keeps_makeDocument hI _ _).bind_ok fun loaded hloaded => ?_
              obtain ⟨serial, rfl⟩ := hloaded
              obtain ⟨hdone, hkeep⟩ := hreached.2 reached serial rfl
              dsimp only
              split
              · rename_i hempty
                exact Keeps.next (.modify fun s hs => hkeep (List.isEmpty_iff.1 hempty) s _ hs)
                  (.pure hdone)
              · exact .pure hdone
            · rw [Except.bind, ← he] at hfound
              exact hunread e hfound
          · rw [← he] at hfound
            exact hunread e hfound

end

/-- The same outcome: the same fault, or results that stand in a relation. -/
inductive Agree {α β : Type} (R : α → β → Prop) :
    Except LoadFault α → Except LoadFault β → Prop where
  | ok {a : α} {b : β} (h : R a b) : Agree R (.ok a) (.ok b)
  | error (e : LoadFault) : Agree R (.error e) (.error e)

namespace Agree

variable {α β : Type} {R : α → β → Prop} {y : Except LoadFault β}

theorem of_ok {a : α} (h : Agree R (.ok a) y) : ∃ b, y = .ok b ∧ R a b := by
  cases h with
  | ok h => exact ⟨_, rfl, h⟩

theorem of_error {e : LoadFault} (h : Agree R (.error e) y) : y = .error e := by
  cases h
  rfl

end Agree

/-! ### What is kept -/

/-- A loaded document is the surveyed one, resolved. -/
structure Answers (builtins : Option Builtins) (loaded : Loaded) (s : Survey) : Prop where
  document : loaded.document = (resolve s.document s.dependencies builtins).document
  dependencies : loaded.dependencies.unbound = s.dependencies.unbound

/-- A kept document is the one that its file gives when it is loaded alone. -/
def Sound (host : Host) (key : CacheKey) (loaded : Loaded) : Prop :=
  ∃ s, host.survey key.options.withDependencies host.depth [] key.path = .ok s ∧ s.skipped = [] ∧
    Answers key.options.builtins loaded s

/-- What is kept of unchanged files is sound, if their references mean one file each. -/
def Valid (host : Host) (s : LoadState) : Prop :=
  ∀ e ∈ s.cache, ∀ file, host.files.file? e.1.path.names = some file →
    file.modified = e.2.modified →
    host.Unambiguous e.1.options.withDependencies e.1.path → Sound host e.1 e.2.loaded

namespace Valid

variable {host : Host} {s : LoadState}

theorem empty : Valid host LoadState.empty := fun _ he => absurd he List.not_mem_nil

theorem antitone (s s' : LoadState) (h : s'.cache ⊆ s.cache) (hs : Valid host s) : Valid host s' :=
  fun e he => hs e (h he)

theorem keep (h : Valid host s) {key : CacheKey} {loaded : Loaded} (modified : Int)
    (hsound : host.Unambiguous key.options.withDependencies key.path → Sound host key loaded) :
    Valid host (s.keep key ⟨loaded, modified⟩) := by
  intro e he f hf hm
  rcases List.mem_cons.1 he with rfl | he
  · exact hsound
  · exact h e (List.mem_of_mem_filter he) f hf hm

end Valid

/-! ### Loading and surveying -/

theorem setDocument_unbound (reference : String) (d : Document) (deps : Resolve.Dependencies) :
    (setDocument reference d deps).unbound = setDocument reference d.unbound deps.unbound := by
  induction deps with
  | nil => rfl
  | cons e rest ih =>
      rw [setDocument, Resolve.Dependencies.unbound_cons, setDocument]
      by_cases he : e.1 = reference
      · rw [if_pos he, if_pos he, Resolve.Dependencies.unbound_cons]
      · rw [if_neg he, if_neg he, Resolve.Dependencies.unbound_cons, ih]

theorem addMissing_unbound (deps more : Resolve.Dependencies) :
    (addMissing deps more).unbound = addMissing deps.unbound more.unbound := by
  induction more generalizing deps with
  | nil => rfl
  | cons e rest ih =>
      have hkeys : deps.unbound.map Prod.fst = deps.map Prod.fst := by
        rw [List.map_map]
        rfl
      rw [addMissing_cons, ih, Resolve.Dependencies.unbound_cons, addMissing_cons, hkeys]
      by_cases he : e.1 ∈ deps.map Prod.fst
      · rw [if_pos he, if_pos he]
      · rw [if_neg he, if_neg he, Resolve.Dependencies.unbound, List.map_append]
        rfl

structure Alike (r r' : Reached) : Prop where
  dependencies : r.dependencies.unbound = r'.dependencies.unbound
  skipped : r.skipped = r'.skipped

/-- Loading gives what a survey found, and skipped the same files. -/
structure Matches (builtins : Option Builtins) (found : Loaded × List Path) (s : Survey) :
    Prop where
  answers : Answers builtins found.1 s
  skipped : found.2 = s.skipped

section

variable {host : Host} {options : LoadOptions} {fuel : Nat} {loading : List Path} {p : Path}

theorem Alike.join {r r' : Reached} {found : Loaded × List Path} {s : Survey} (h : Alike r r')
    (reference : String) (hread : host.read p = .ok s.document)
    (hm : Matches options.builtins found s) :
    Alike (r.add reference found) (r'.join reference s) := by
  obtain ⟨-, hconsistent, hids⟩ := Host.read_spec hread
  have hdocument : found.1.document.unbound = s.document.unbound := by
    rw [hm.answers.document]
    exact Resolve.unbound_resolve hconsistent hids _ _
  constructor
  · rw [Reached.add, Reached.join, addMissing_unbound, addMissing_unbound, setDocument_unbound,
      setDocument_unbound, hdocument, h.dependencies, hm.answers.dependencies]
  · rw [Reached.add, Reached.join, h.skipped, hm.skipped]

/-- Following a reference finds what a visit finds. -/
theorem faithful_follow {load : Path → Load (Loaded × List Path)} {d : Document}
    {reference : String} (hread : host.read p = .ok d)
    (href : reference ∈ Host.followed options.withDependencies d)
    (hload : ∀ t ∉ loading, Keeps (Valid host) (load t) fun r =>
      host.Unambiguous options.withDependencies t →
        Agree (Matches options.builtins) r (host.survey options.withDependencies fuel loading t))
    (r : Reached) : Keeps (Valid host) (Load.follow host load loading p r reference) fun x =>
      host.Unambiguous options.withDependencies p → ∀ r', Alike r r' →
        Agree Alike x (host.visit (host.survey options.withDependencies fuel loading) loading p r'
          reference) := by
  refine keeps_follow Valid.antitone (fun htarget _ r' hr => ?_) (fun t hin htarget _ r' hr => ?_)
    fun t hout htarget => (hload t hout).mono fun x hx hu r' hr => ?_
  · rw [Host.visit, htarget]
    exact .ok hr
  · rw [Host.visit, htarget]
    dsimp only
    rw [if_pos hin]
    exact .ok ⟨hr.dependencies, congrArg (· ++ _) hr.skipped⟩
  · rw [Host.visit, htarget]
    dsimp only
    rw [if_neg hout]
    have hfound := hx (hu.of_reaches (Host.Leads.reaches ⟨reference, d, hread, href, htarget⟩))
    cases x with
    | ok found =>
        obtain ⟨s, hs, hm⟩ := hfound.of_ok
        rw [hs]
        exact .ok (hr.join reference (Host.read_of_survey hs) hm)
    | error e =>
        rw [hfound.of_error]
        exact .error e

/-- A fold that agrees with another at each step agrees with it as a whole. -/
theorem keeps_foldlM {α β γ : Type} {I : LoadState → Prop} {U : Prop} {R : β → γ → Prop}
    {f : β → α → Load β} {g : γ → α → Except LoadFault γ} {as : List α}
    (h : ∀ a ∈ as, ∀ b, Keeps I (f b a) fun x => U → ∀ c, R b c → Agree R x (g c a)) (b : β) :
    Keeps I (as.foldlM f b) fun x => U → ∀ c, R b c → Agree R x (as.foldlM g c) := by
  induction as generalizing b with
  | nil => exact .pure fun _ c hc => .ok hc
  | cons a as ih =>
      rw [List.foldlM_cons]
      refine (h a (List.mem_cons_self ..) b).bind (fun b' hb' => ?_) (fun e he hu c hc => ?_)
      · refine (ih (fun a ha => h a (List.mem_cons_of_mem _ ha)) b').mono fun x hx hu c hc => ?_
        obtain ⟨c', hc', hR⟩ := (hb' hu c hc).of_ok
        rw [List.foldlM_cons, hc']
        exact hx hu c' hR
      · rw [List.foldlM_cons, (he hu c hc).of_error]
        exact .error e

/-- Loading keeps the cache sound, and finds what a survey finds if references mean one
file each. -/
def Faithful (host : Host) (options : LoadOptions) (fuel : Nat) (loading : List Path) (p : Path)
    (x : Load (Loaded × List Path)) : Prop :=
  Keeps (Valid host) x fun r => host.Unambiguous options.withDependencies p →
    Agree (Matches options.builtins) r (host.survey options.withDependencies fuel loading p)

/-- The end of loading a file, when its dependencies have been loaded: it is kept if no file
was skipped. -/
theorem faithful_finish {d : Document} (hread : host.read p = .ok d)
    (hfuel : (host.unseen loading).card < fuel + 1) (hp : p ∉ loading) {reached : Reached}
    (hreached : host.Unambiguous options.withDependencies p →
      Agree Alike (.ok reached) ((Host.followed options.withDependencies d).foldlM
        (host.visit (host.survey options.withDependencies fuel (loading ++ [p])) (loading ++ [p]) p)
          ⟨[], []⟩))
    (serial : Nat) :
    (host.Unambiguous options.withDependencies p →
      Agree (Matches options.builtins) (.ok (loadedFrom options p d serial reached))
        (host.survey options.withDependencies (fuel + 1) loading p)) ∧
    ((loadedFrom options p d serial reached).2 = [] → ∀ s modified, Valid host s →
      Valid host (s.keep ⟨p, options⟩ ⟨(loadedFrom options p d serial reached).1, modified⟩)) := by
  have hmatches : host.Unambiguous options.withDependencies p →
      ∃ s, host.survey options.withDependencies (fuel + 1) loading p = .ok s ∧
        Matches options.builtins (loadedFrom options p d serial reached) s := by
    intro hu
    obtain ⟨r', hr', halike⟩ := (hreached hu).of_ok
    rw [Host.survey_of_read hread, hr']
    exact ⟨_, rfl, ⟨Resolve.resolve_congr halike.dependencies, halike.dependencies⟩,
      congrArg (List.filter _) halike.skipped⟩
  refine ⟨fun hu => ?_, fun hempty s modified h => h.keep modified fun hu => ?_⟩
  · obtain ⟨s, hs, hm⟩ := hmatches hu
    rw [hs]
    exact .ok hm
  · -- The survey of the file alone is the same, since no file on the way was skipped.
    obtain ⟨s, hs, hm⟩ := hmatches hu
    have hskipped : s.skipped = [] := hm.skipped.symm.trans hempty
    exact ⟨s, Host.survey_alone hs hskipped hfuel hp, hskipped, hm.answers⟩

theorem restsOn_false {loaded : Loaded} (h : Load.restsOn loading loaded = false) {origin : String}
    (ho : origin ∈ loaded.dependencies.map (·.2.origin)) {q : Path} (hq : q ∈ loading) :
    q.text ≠ origin := by
  obtain ⟨e, he, rfl⟩ := List.mem_map.1 ho
  intro htext
  have hany : Load.restsOn loading loaded = true :=
    List.any_eq_true.2 ⟨e, he, List.any_eq_true.2 ⟨q, hq, decide_eq_true htext⟩⟩
  rw [h] at hany
  cases hany

/-- A kept document that rests on no file that is being loaded is what a survey finds now. -/
theorem faithful_hit {loaded : Loaded} (hrest : Load.restsOn loading loaded = false)
    (hsound : host.Unambiguous options.withDependencies p → Sound host ⟨p, options⟩ loaded)
    (hfuel : (host.unseen loading).card < fuel) (hp : p ∉ loading)
    (hu : host.Unambiguous options.withDependencies p) :
    Agree (Matches options.builtins) (.ok (loaded, []))
      (host.survey options.withDependencies fuel loading p) := by
  obtain ⟨s, hs, hskipped, hanswers⟩ := hsound hu
  have hrest' : ∀ e ∈ s.dependencies, ∀ q ∈ loading, q.text ≠ e.2.origin := by
    intro e he q hq htext
    have horigin : e.2.origin ∈ loaded.dependencies.map (·.2.origin) := by
      rw [Resolve.Dependencies.origins_of_unbound hanswers.dependencies]
      exact List.mem_map_of_mem he
    exact restsOn_false hrest horigin hq htext
  rw [Host.survey_within hs hu hfuel hp hrest']
  exact .ok ⟨hanswers, hskipped.symm⟩

theorem faithful_loadPath (hfuel : (host.unseen loading).card < fuel) (hp : p ∉ loading) :
    Faithful host options fuel loading p (Load.loadPath host options fuel loading p) := by
  induction fuel generalizing loading p with
  | zero => exact absurd hfuel (Nat.not_lt_zero _)
  | succ fuel ih =>
      refine keeps_loadPath Valid.antitone (fun file loaded hfile hrest hkept => ?_)
        (fun e hread _ => ?_) fun d hread => ?_
      · obtain ⟨s, hs, hmem⟩ := hkept
        exact faithful_hit hrest (hs _ hmem file hfile rfl) hfuel hp
      · -- A file that cannot be read fails to be surveyed, too.
        rw [Host.survey_of_error hread]
        exact .error e
      · refine (keeps_foldlM (U := host.Unambiguous options.withDependencies p) (R := Alike)
          (g := host.visit (host.survey options.withDependencies fuel (loading ++ [p]))
          (loading ++ [p]) p) (fun reference href r => faithful_follow hread href
          (fun t ht => ?_) r) _).mono fun x hx => ?_
        · exact ih (Nat.lt_of_lt_of_le (Host.unseen_append_lt hread hp)
            (Nat.le_of_lt_succ hfuel)) ht
        · refine ⟨fun e he hu => ?_, fun reached serial he => ?_⟩
          · subst he
            rw [Host.survey_of_read hread, (hx hu ⟨[], []⟩ ⟨rfl, rfl⟩).of_error]
            exact .error e
          · subst he
            exact faithful_finish hread hfuel hp (fun hu => hx hu _ ⟨rfl, rfl⟩) serial
end

end Scad.Library
