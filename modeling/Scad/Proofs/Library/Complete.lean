import Scad.Proofs.Library.Order
import Scad.Proofs.Library.Path
import Scad.Proofs.Resolve.Library

/-! What comes with a loaded file. Each document that is found is that of some file under a text
that means it somewhere; where the texts on the way mean one file each, a file that is included
comes with its definitions. -/
namespace Scad.Library

open Load (Keeps Reached)

/-! ### What loading finds -/

abbrev Links := Path → String → Path → Prop

/-- What some references of a host reach past the avoided files, those of them reach that
have a document. -/
def Complete (host : Host) (deep : Bool) (avoided : List Path) (p : Path)
    (deps : Resolve.Dependencies) : Prop :=
  ∀ S : Links, (∀ a reference b, S a reference b → host.Refers deep a reference b) → ∀ x,
    Relation.ReflTransGen (fun a b => (∃ reference, S a reference b) ∧ b ∉ avoided) p x →
    Relation.ReflTransGen (fun a b => ∃ reference ∈ deps.map Prod.fst, S a reference b) p x

/-- A document that is found is that of a file, under a text that means this file where it
is reached. -/
def IsFoundAs (host : Host) (deep : Bool) (p : Path) (e : String × Document) : Prop :=
  ∃ q x d, host.Reaches deep p q ∧ host.Refers deep q e.1 x ∧ host.read x = .ok d ∧
    e.2.unbound = d.unbound

/-- A loaded file comes with the documents that its references reach past the skipped files. -/
structure HasAllReached (host : Host) (key : CacheKey) (skipped : List Path) (loaded : Loaded) :
    Prop where
  document : ∃ d, host.read key.path = .ok d ∧
    loaded.document = (resolve d loaded.dependencies key.options.builtins).document
  found : ∀ e ∈ loaded.dependencies, IsFoundAs host key.options.withDependencies key.path e
  complete : Complete host key.options.withDependencies skipped key.path loaded.dependencies

def AllHaveReached (host : Host) (s : LoadState) : Prop :=
  ∀ e ∈ s.cache, HasAllReached host e.1 [] e.2.loaded

section

variable {host : Host} {options : LoadOptions} {deep : Bool} {loading : List Path} {p t : Path}

theorem AllHaveReached.antitone (s s' : LoadState) (h : s'.cache ⊆ s.cache)
    (hs : AllHaveReached host s) : AllHaveReached host s' :=
  fun e he => hs e (h he)

theorem AllHaveReached.keep {s : LoadState} (h : AllHaveReached host s) {key : CacheKey}
    {loaded : Loaded} (hloaded : HasAllReached host key [] loaded) (modified : Int) :
    AllHaveReached host (s.keep key ⟨loaded, modified⟩) := by
  intro e he
  rcases List.mem_cons.1 he with rfl | he
  · exact hloaded
  · exact h e (List.mem_of_mem_filter he)

theorem IsFoundAs.of_leads {e : String × Document} (h : IsFoundAs host deep t e)
    (hlead : host.Leads deep p t) :
    IsFoundAs host deep p e := by
  obtain ⟨q, x, d, hq, hrest⟩ := h
  exact ⟨q, x, d, hlead.reaches.trans hq, hrest⟩

/-- A fold of steps that do something at each member. -/
theorem keeps_foldlM_ok {α β : Type} {I : LoadState → Prop} {R : β → β → Prop} (hrefl : ∀ b, R b b)
    (htrans : ∀ {a b c}, R a b → R b c → R a c) {P : α → β → Prop} {f : β → α → Load β}
    {as : List α} (h : ∀ a ∈ as, ∀ b, Keeps I (f b a) fun x => ∀ b', x = .ok b' → R b b' ∧ P a b')
    (b : β) :
    Keeps I (as.foldlM f b) fun x => ∀ b', x = .ok b' → R b b' ∧ ∀ a ∈ as, ∃ c, P a c ∧ R c b' := by
  induction as generalizing b with
  | nil => exact .pure fun b' hb' => by cases hb'; exact ⟨hrefl b, nofun⟩
  | cons a as ih =>
      rw [List.foldlM_cons]
      refine (h a (List.mem_cons_self ..) b).bind (fun c hc => ?_) (fun e _ b' hb' => by cases hb')
      obtain ⟨hstep, hP⟩ := hc c rfl
      refine (ih (fun a ha => h a (List.mem_cons_of_mem _ ha)) c).mono fun x hx b' hb' => ?_
      obtain ⟨hrest, hmem⟩ := hx b' hb'
      refine ⟨htrans hstep hrest, fun a' ha' => ?_⟩
      rcases List.mem_cons.1 ha' with rfl | ha'
      · exact ⟨c, hP, hrest⟩
      · exact hmem a' ha'

/-- More was found and skipped, and all that was found stems from the file. -/
structure Gathers (host : Host) (deep : Bool) (loading : List Path) (p : Path) (r r' : Reached) :
    Prop where
  grows : Reached.Grows r r'
  stems : (∀ e ∈ r.dependencies, IsFoundAs host deep p e) → ∀ e ∈ r'.dependencies,
    IsFoundAs host deep p e
  loading : r.skipped ⊆ loading → r'.skipped ⊆ loading

theorem Gathers.refl (r : Reached) : Gathers host deep loading p r r := ⟨.refl r, id, id⟩

theorem Gathers.trans {a b c : Reached} (h : Gathers host deep loading p a b)
    (h' : Gathers host deep loading p b c) :
    Gathers host deep loading p a c :=
  ⟨h.grows.trans h'.grows, h'.stems ∘ h.stems, h'.loading ∘ h.loading⟩

/-- What was done about a reference to a file: it was skipped, or all that comes with it
was added. -/
def Followed (host : Host) (deep : Bool) (reference : String) (t : Path) (r : Reached) : Prop :=
  t ∈ r.skipped ∨ ∃ below skipped, Complete host deep skipped t below ∧ skipped ⊆ r.skipped ∧
    reference ∈ r.dependencies.map Prod.fst ∧ below.map Prod.fst ⊆ r.dependencies.map Prod.fst

theorem Followed.mono {reference : String} {r r' : Reached} (h : Followed host deep reference t r)
    (hgrows : Reached.Grows r r') : Followed host deep reference t r' := by
  rcases h with hin | ⟨below, skipped, hbelow, hskipped, href, hkeys⟩
  · exact .inl (hgrows.skipped hin)
  · exact .inr ⟨below, skipped, hbelow, fun _ hq => hgrows.skipped (hskipped hq),
      hgrows.references href, fun _ hk => hgrows.references (hkeys hk)⟩

/-- If every reference was followed, then what comes with a file is complete. -/
theorem complete_of_followed {r : Reached}
    (h : ∀ reference t, host.Refers deep p reference t → Followed host deep reference t r) :
    Complete host deep (r.skipped.filter (· ≠ p)) p r.dependencies := by
  intro S hS x hx
  rcases cases_past hx with rfl | ⟨t, ⟨reference, hlink⟩, hnew, hrest⟩
  · exact .refl
  · have houter : ∀ q, q ∉ r.skipped.filter (· ≠ p) ++ [p] → q ∉ r.skipped := by
      intro q hq hin
      by_cases hqp : q = p <;> simp_all
    -- The way starts with a reference that was followed, and the rest of it avoids what was skipped
    -- below.
    rcases h reference t (hS _ _ _ hlink) with hin | ⟨below, skipped, hbelow, hskipped, href, hkeys⟩
    · exact absurd hin (houter t hnew)
    · have hpast : Relation.ReflTransGen (fun a b => (∃ reference, S a reference b) ∧
          b ∉ skipped) t x :=
        Relation.ReflTransGen.mono
          (fun _ b hstep => ⟨hstep.1, fun hin => houter b hstep.2 (hskipped hin)⟩) t x hrest
      refine .head ⟨reference, href, hlink⟩ ?_
      exact Relation.ReflTransGen.mono (fun _ _ ⟨other, hother, hstep⟩ =>
        ⟨other, hkeys hother, hstep⟩) t x
        (hbelow S hS x hpast)

/-- Following a reference gathers what comes with the file that it names. -/
theorem hasAllReached_follow {load : Path → Load (Loaded × List Path)} {d : Document}
    {reference : String} (hread : host.read p = .ok d)
    (href : reference ∈ Host.followed options.withDependencies d)
    (hload : ∀ t ∉ loading, Keeps (AllHaveReached host) (load t) fun x =>
      ∀ found, x = .ok found → HasAllReached host ⟨t, options⟩ found.2 found.1 ∧ found.2 ⊆ loading)
    (r : Reached) :
    Keeps (AllHaveReached host) (Load.follow host load loading p r reference) fun x => ∀ r',
      x = .ok r' → Gathers host options.withDependencies loading p r r' ∧
      ∀ t, host.target? p reference = some t →
      Followed host options.withDependencies reference t r' := by
  refine keeps_follow AllHaveReached.antitone (fun htarget r' hr' => ?_)
    (fun t hin htarget r' hr' => ?_) fun t hout htarget => (hload t hout).mono fun x hx r' hr' => ?_
  · cases hr'
    exact ⟨.refl r, fun t ht => by rw [htarget] at ht; cases ht⟩
  · cases hr'
    refine ⟨⟨.skip r t, id, fun hsub q hq => ?_⟩, fun t' ht' => ?_⟩
    · rcases List.mem_append.1 hq with hq | hq
      · exact hsub hq
      · exact List.mem_singleton.1 hq ▸ hin
    · cases htarget.symm.trans ht'
      exact .inl (List.mem_append_right _ (List.mem_singleton_self _))
  · obtain ⟨found, rfl, rfl⟩ : ∃ found, x = .ok found ∧ r.add reference found = r' := by
      cases x with
      | ok found => exact ⟨found, rfl, Except.ok.inj hr'⟩
      | error e => cases hr'
    obtain ⟨⟨⟨d', hd', hdocument⟩, hfound, hcomplete⟩, hskipped⟩ := hx found rfl
    have hrefers : host.Refers options.withDependencies p reference t := ⟨d, hread, href, htarget⟩
    refine ⟨⟨.join r reference ⟨found.1.document, found.1.dependencies, found.2⟩,
      fun hstems e he => ?_, fun hsub q hq => ?_⟩, fun t' ht' => ?_⟩
    · rcases mem_addMissing he with he | he
      · rcases mem_setDocument he with he | rfl
        · exact hstems e he
        · refine ⟨p, t, d', .refl, hrefers, hd', ?_⟩
          obtain ⟨-, hconsistent, hids⟩ := Host.read_spec hd'
          rw [hdocument]
          exact Resolve.unbound_resolve hconsistent hids _ _
      · exact (hfound e he).of_leads ⟨reference, hrefers⟩
    · exact (List.mem_append.1 hq).elim (fun hq => hsub hq) fun hq => hskipped hq
    · cases htarget.symm.trans ht'
      refine .inr ⟨found.1.dependencies, found.2, hcomplete, List.subset_append_right _ _,
        ?_, fun k hk => ?_⟩
      · exact mem_keys_addMissing.2 (.inl (mem_keys_setDocument.2 (.inl rfl)))
      · exact mem_keys_addMissing.2 (.inr hk)

theorem hasAllReached_loadPath (fuel : Nat) (loading : List Path) (p : Path) :
    Keeps (AllHaveReached host) (Load.loadPath host options fuel loading p) fun x =>
      ∀ found, x = .ok found → HasAllReached host ⟨p, options⟩ found.2 found.1 ∧
      found.2 ⊆ loading := by
  induction fuel generalizing loading p with
  | zero => exact .throw nofun
  | succ fuel ih =>
      refine keeps_loadPath AllHaveReached.antitone (fun file loaded _ _ hkept found hfound => ?_)
        (fun e _ => nofun) fun d hread => ?_
      · obtain ⟨s, hs, hmem⟩ := hkept
        cases hfound
        exact ⟨hs _ hmem, List.nil_subset _⟩
      · refine (keeps_foldlM_ok (R := Gathers host options.withDependencies (loading ++ [p]) p)
          .refl .trans (fun reference href r => hasAllReached_follow hread href
          (fun t _ => ih _ t) r) _).mono fun x hx => ?_
        refine ⟨fun e he => nofun, fun reached serial he => ?_⟩
        obtain ⟨hgathers, hmem⟩ := hx reached he
        have hwhole : HasAllReached host ⟨p, options⟩ (loadedFrom options p d serial reached).2
            (loadedFrom options p d serial reached).1 := by
          refine ⟨⟨d, hread, rfl⟩, hgathers.stems nofun,
            complete_of_followed fun reference t hrefers => ?_⟩
          obtain ⟨d', hd', href, htarget⟩ := hrefers
          cases hread.symm.trans hd'
          obtain ⟨c, hfollowed, hrest⟩ := hmem reference href
          exact (hfollowed t htarget).mono hrest.grows
        refine ⟨fun found hfound => ?_, fun hempty s modified hs =>
          hs.keep (hempty ▸ hwhole) modified⟩
        cases hfound
        refine ⟨hwhole, fun q hq => ?_⟩
        obtain ⟨hin, hne⟩ := List.mem_filter.1 hq
        rcases List.mem_append.1 (hgathers.loading (List.nil_subset _) hin) with hin | hin
        · exact hin
        · exact absurd (List.mem_singleton.1 hin) (of_decide_eq_true hne)

theorem hasAllReached_loadFile (file : String) :
    Keeps (AllHaveReached host) (loadFile host options file) fun x =>
    ∀ loaded, x = .ok loaded → HasAllReached host ⟨host.path file, options⟩ [] loaded := by
  rw [loadFile]
  split
  · refine (hasAllReached_loadPath host.depth [] (host.path file)).bind
      (fun found hfound => .pure fun loaded hloaded => ?_)
      fun e _ loaded hloaded => by cases hloaded
    obtain ⟨hwhole, hskipped⟩ := hfound found rfl
    cases hloaded
    exact List.subset_nil.1 hskipped ▸ hwhole
  · exact .throw fun loaded hloaded => by cases hloaded

theorem allWhole_afterLoads (calls : List (LoadOptions × String)) :
    AllHaveReached host (afterLoads host calls) :=
  List.foldlRecOn calls _ (fun _ he => absurd he List.not_mem_nil) fun s hs _ _ =>
    (hasAllReached_loadFile _ s hs).1

end

/-! ### What is included is brought in -/

namespace Host

def Includes (host : Host) (p : Path) (reference : String) (q : Path) : Prop :=
  ∃ d, host.read p = .ok d ∧ reference ∈ d.fileNames .everything ∧ host.target? p reference = some q

/-- Among the files that belong to a file, a text means one file wherever it means any. -/
def Means (host : Host) (root : Path) (reference : String) (q : Path) : Prop :=
  ∀ p x, host.Reaches true root p → host.Refers true p reference x → x = q

variable {host : Host} {p q root : Path} {reference : String}

theorem exists_of_mem_fileNames {d : Document} {inclusion : Inclusion}
    (h : reference ∈ d.fileNames inclusion) :
    ∃ n ∈ d.statements, n.form = .fileReference inclusion reference := by
  obtain ⟨n, hn, hf⟩ := List.mem_filterMap.1 h
  split at hf
  · rename_i i f hform
    split at hf
    · rename_i hi
      cases hf
      exact ⟨n, hn, hi ▸ hform⟩
    · cases hf
  · cases hf

theorem includes_of_fileNames {texts : List String}
    (h : (host.read p).toOption.map (·.fileNames .everything) = some texts)
    (href : reference ∈ texts) (htarget : host.target? p reference = some q) :
    host.Includes p reference q := by
  obtain ⟨d, hd, rfl⟩ := Parse.exists_of_map h
  exact ⟨d, hd, href, htarget⟩

theorem Includes.refers (h : host.Includes p reference q) : host.Refers true p reference q := by
  obtain ⟨d, hd, href, ht⟩ := h
  obtain ⟨n, hn, hf⟩ := exists_of_mem_fileNames href
  refine ⟨d, hd, List.mem_filterMap.2 ⟨n, hn, ?_⟩, ht⟩
  rw [hf]

end Host

section

variable {host : Host} (hfolder : host.folder.Normal) {builtins : Option Builtins} {root : Path}
  {loaded : Loaded} (hloaded : HasAllReached host ⟨root, ⟨builtins, true⟩⟩ [] loaded)

include hloaded

/-- A text that means one file has the document of this file. -/
theorem find?_of_means {reference : String} {q : Path}
    (href : reference ∈ loaded.dependencies.map Prod.fst) (hmeans : host.Means root reference q) :
    ∃ d, host.read q = .ok d ∧ loaded.dependencies.unbound.find? reference = some d.unbound := by
  have hsome : (loaded.dependencies.find? reference).isSome := by
    obtain ⟨e, he, rfl⟩ := List.mem_map.1 href
    rw [Resolve.Dependencies.find?, Option.isSome_map, List.find?_isSome]
    exact ⟨e, he, by simp⟩
  obtain ⟨found, hfound⟩ := Option.isSome_iff_exists.1 hsome
  obtain ⟨e, he, rfl⟩ := Option.map_eq_some_iff.1 hfound
  obtain ⟨p, x, d, hp, hrefers, hread, hunbound⟩ := hloaded.found e (List.mem_of_find?_eq_some he)
  have htext : e.1 = reference := by simpa using List.find?_some he
  rw [htext] at hrefers
  obtain rfl := hmeans p x hp hrefers
  exact ⟨d, hread, by rw [Resolve.Dependencies.find?_unbound, hfound, Option.map_some, hunbound]⟩

include hfolder

/-- Documents that are found with a file, and the file's own, are known by their origin. -/
theorem same_of_origin (hroot : root.Normal) {d : Document} (hd : host.read root = .ok d) :
    ∀ e ∈ d.unbound :: loaded.dependencies.unbound.map Prod.snd,
      ∀ e' ∈ d.unbound :: loaded.dependencies.unbound.map Prod.snd, e.origin =
        e'.origin → e = e' := by
  have hread : ∀ e ∈ d.unbound :: loaded.dependencies.unbound.map Prod.snd,
      ∃ x f, x.Normal ∧ host.read x = .ok f ∧ e = f.unbound := by
    intro e he
    rcases List.mem_cons.1 he with rfl | he
    · exact ⟨root, d, hroot, hd, rfl⟩
    · obtain ⟨_, hmem, rfl⟩ := List.mem_map.1 he
      obtain ⟨found, hfound, rfl⟩ := List.mem_map.1 hmem
      obtain ⟨q, x, f, -, ⟨_, -, -, htarget⟩, hread, hunbound⟩ := hloaded.found found hfound
      obtain ⟨place, -, rfl⟩ := Option.map_eq_some_iff.1 htarget
      exact ⟨_, f, Path.normal_ofText hfolder place, hread, hunbound⟩
  intro e he e' he' horigin
  obtain ⟨x, f, hx, hf, rfl⟩ := hread e he
  obtain ⟨x', f', hx', hf', rfl⟩ := hread e' he'
  have htext : x.text = x'.text :=
    (Host.read_spec hf).1.symm.trans (horigin.trans (Host.read_spec hf').1)
  obtain rfl := Path.text_injective hx hx' htext
  cases hf.symm.trans hf'
  rfl

/-- Along references that include, and whose texts mean one file each, the documents include
each other. -/
theorem reaches_of_includes {d : Document} (hd : host.read root = .ok d)
    (hroot : root.Normal) {q : Path}
    (h : Relation.ReflTransGen (fun a b => ∃ reference ∈ loaded.dependencies.map Prod.fst,
      host.Includes a reference b ∧ host.Means root reference b) root q) :
    ∃ e, host.read q = .ok e ∧ q.Normal ∧
    Resolve.Reaches loaded.dependencies.unbound d.unbound e.unbound := by
  induction h with
  | refl => exact ⟨d, hd, hroot, .refl⟩
  | @tail a b _ hstep ih =>
      obtain ⟨reference, href, ⟨f, hf, hname, htarget⟩, hmeans⟩ := hstep
      obtain ⟨e, he, -, hreach⟩ := ih
      cases hf.symm.trans he
      obtain ⟨n, hn, hform⟩ := Host.exists_of_mem_fileNames hname
      -- Under this text no other file can have been found.
      obtain ⟨g, hg, hfind⟩ := find?_of_means hloaded href hmeans
      obtain ⟨place, -, rfl⟩ := Option.map_eq_some_iff.1 htarget
      refine ⟨g, hg, Path.normal_ofText hfolder place,
        hreach.tail ⟨n.unbound, List.mem_map_of_mem hn, reference, ?_, hfind⟩⟩
      rw [Node.form_unbound, hform]
      rfl

end

/-- A file that is loaded, after whatever else, is resolved against a library with every function
and module at the top level of each file that it reaches by references that include, if the text of
each of these references means one file among all that belong to the file. -/
theorem definitions_of_included {host : Host} (hfolder : host.folder.Normal)
    (calls : List (LoadOptions × String)) (builtins : Option Builtins) (file : String)
    {loaded : Loaded}
    (hloaded : (loadFile host ⟨builtins, true⟩ file).outcome (afterLoads host calls) = .ok loaded)
    {q : Path} (hq : q ≠ host.path file)
    (hreach : Relation.ReflTransGen (fun a b => ∃ reference, host.Includes a reference b ∧
      host.Means (host.path file) reference b) (host.path file) q) :
    ∃ d e, host.read (host.path file) = .ok d ∧ host.read q = .ok e ∧
      loaded.document = (resolve d loaded.dependencies builtins).document ∧
      ∀ n ∈ e.statements, ∀ f, n.declaration? = some f → ∀ c ≠ NameClass.vars,
        c.definitionKind = f.kind →
        ((resolve d loaded.dependencies builtins).library.lookup c f.name).isSome := by
  have hwhole := (hasAllReached_loadFile file _ (allWhole_afterLoads calls)).2 loaded hloaded
  have hroot : (host.path file).Normal := Path.normal_ofText hfolder file
  obtain ⟨d, hd, hdocument⟩ := hwhole.document
  have hchain := hwhole.complete
    (fun a reference b => host.Includes a reference b ∧ host.Means (host.path file) reference b)
    (fun a reference b h => h.1.refers) q
    (Relation.ReflTransGen.mono (fun _ _ hlink => ⟨hlink, List.not_mem_nil⟩) _ _ hreach)
  obtain ⟨e, he, hnormal, hreaches⟩ := reaches_of_includes hfolder hwhole hd hroot hchain
  have hne : e.unbound ≠ d.unbound := by
    intro heq
    have horigin : e.origin = d.origin := (Document.mk.inj heq).1
    rw [(Host.read_spec he).1, (Host.read_spec hd).1] at horigin
    exact hq (Path.text_injective hnormal hroot horigin)
  have hfinished :=
    Resolve.finished_of_reaches (same_of_origin hfolder hwhole hroot hd) hreaches hne
  refine ⟨d, e, hd, he, hdocument, fun n hn f hf c hc hkind => ?_⟩
  have hsome := hfinished.definition (List.mem_map_of_mem hn)
    ((Resolve.declaration?_unbound n).trans hf) hc hkind
  have hframe : (Resolve.importAll loaded.dependencies d).frame =
      (Resolve.importAll loaded.dependencies.unbound d.unbound).frame :=
    (Resolve.Exports.mk.inj (Resolve.importAll_unbound loaded.dependencies d)).1
  rw [Resolve.library_resolve, hframe, Resolve.importAll_eq, Scope.lookup, List.findSome?_singleton]
  exact hsome

/-- A text means one file if it does so in a table of files with their links. -/
theorem Host.means_of_table {host : Host} (table : List (Path × List (String × Path)))
    (hlinks : ∀ e ∈ table, host.links true e.1 = e.2) {root : Path}
    (hroot : root ∈ table.map Prod.fst) (hclosed : ∀ e ∈ table, ∀ l ∈ e.2, l.2 ∈ table.map Prod.fst)
    {reference : String} {q : Path} (hsame : ∀ e ∈ table, ∀ l ∈ e.2, l.1 = reference → l.2 = q) :
    host.Means root reference q := by
  intro p x hp hx
  obtain ⟨e, he, hl⟩ := exists_link table hlinks (mem_of_reaches table hlinks hroot hclosed hp) hx
  exact hsame e he _ hl rfl

/-- A file whose include leads through another folder and back to it. The text `e` means
different files. -/
def round : Host where
  files := FileTable.ofFolder ["w"]
    |>.write ["w", "m"] (textFile "include <a>use <e>" 1)
    |>.write ["w", "a"] (textFile "include <d/b>" 1)
    |>.write ["w", "d", "b"] (textFile "include <../m>use <e>function f(z)=z;" 1)
    |>.write ["w", "e"] (textFile "" 1)
    |>.write ["w", "d", "e"] (textFile "" 1)
  environment := ⟨[]⟩
  folder := ⟨false, ["w"]⟩

def roundLinks : List (Path × List (String × Path)) :=
  let m := round.path "m"
  let a := round.path "a"
  let b := round.path "d/b"
  let e := round.path "e"
  let de := round.path "d/e"
  [(m, [("a", a), ("e", e)]), (a, [("d/b", b)]), (b, [("../m", m), ("e", de)]), (e, []), (de, [])]

theorem means_round {reference : String} {q : Path}
    (hsame : ∀ e ∈ roundLinks, ∀ l ∈ e.2, l.1 = reference → l.2 = q) :
    round.Means (round.path "m") reference q :=
  Host.means_of_table roundLinks (by decide +kernel) (by decide +kernel) (by decide +kernel) hsame

/-- The file that was included first is kept, and the file in the other folder comes with it. -/
theorem definitions_of_included_round : round.folder.Normal ∧ ∃ loaded,
    (loadFile round ⟨none, true⟩ "m").outcome (afterLoads round [(⟨none, true⟩, "a")]) =
      .ok loaded ∧
    round.path "d/b" ≠ round.path "m" ∧
    Relation.ReflTransGen (fun a b => ∃ reference, round.Includes a reference b ∧
      round.Means (round.path "m") reference b) (round.path "m") (round.path "d/b") ∧
    ∃ d e, round.read (round.path "m") = .ok d ∧ round.read (round.path "d/b") = .ok e ∧
      loaded.document = (resolve d loaded.dependencies none).document ∧
      ∀ n ∈ e.statements, ∀ f, n.declaration? = some f → ∀ c ≠ NameClass.vars,
        c.definitionKind = f.kind →
        ((resolve d loaded.dependencies none).library.lookup c f.name).isSome := by
  have hok :
      ((loadFile round ⟨none, true⟩ "m").outcome
      (afterLoads round [(⟨none, true⟩, "a")])).isOk := by
    decide +kernel
  obtain ⟨loaded, hloaded⟩ := Parse.exists_of_isOk hok
  have hfolder : round.folder.Normal := fun s hs =>
    List.mem_singleton.1 hs ▸ ⟨by decide, by decide, by decide, by decide⟩
  have hne : round.path "d/b" ≠ round.path "m" := by decide +kernel
  have hfirst : round.Includes (round.path "m") "a" (round.path "a") :=
    Host.includes_of_fileNames (by decide +kernel) (List.mem_singleton_self "a") (by decide +kernel)
  have hsecond : round.Includes (round.path "a") "d/b" (round.path "d/b") :=
    Host.includes_of_fileNames (by decide +kernel) (List.mem_singleton_self "d/b")
      (by decide +kernel)
  have hreach : Relation.ReflTransGen (fun a b => ∃ reference, round.Includes a reference b ∧
      round.Means (round.path "m") reference b) (round.path "m") (round.path "d/b") :=
    .tail (.single ⟨"a", hfirst, means_round (by decide +kernel)⟩) ⟨"d/b", hsecond,
      means_round (by decide +kernel)⟩
  exact ⟨hfolder, loaded, hloaded, hne, hreach,
    definitions_of_included hfolder [(⟨none, true⟩, "a")] none "m" hloaded hne hreach⟩

/-- Two folders with a file of the same name, included from a file of each. -/
def twoFolders : Host where
  files := FileTable.ofFolder ["w"]
    |>.write ["w", "m"] (textFile "include <a/x>include <b/y>v=g(1);" 1)
    |>.write ["w", "a", "x"] (textFile "include <u>" 1)
    |>.write ["w", "a", "u"] (textFile "function f(t)=t;" 1)
    |>.write ["w", "b", "y"] (textFile "include <u>" 1)
    |>.write ["w", "b", "u"] (textFile "function g(t)=t;" 1)
  environment := ⟨[]⟩
  folder := ⟨false, ["w"]⟩

/-- Each file comes once for a text: the second file of this name is lost. -/
theorem definitions_lost_in_second_folder : ∃ loaded d e,
    (loadFile twoFolders ⟨none, true⟩ "m").outcome LoadState.empty = .ok loaded ∧
    twoFolders.read (twoFolders.path "m") = .ok d ∧
    twoFolders.read (twoFolders.path "b/u") = .ok e ∧ twoFolders.path "b/u" ≠ twoFolders.path "m" ∧
    Relation.ReflTransGen (fun a b => ∃ reference, twoFolders.Includes a reference b)
      (twoFolders.path "m") (twoFolders.path "b/u") ∧
    loaded.document = (resolve d loaded.dependencies none).document ∧
    ¬ ∀ n ∈ e.statements, ∀ f, n.declaration? = some f → ∀ c ≠ NameClass.vars,
      c.definitionKind = f.kind →
      ((resolve d loaded.dependencies none).library.lookup c f.name).isSome := by
  have hlookup : ((loadFile twoFolders ⟨none, true⟩ "m").outcome LoadState.empty).toOption.map
    (fun loaded =>
      (twoFolders.read (twoFolders.path "m")).toOption.map fun d =>
        ((resolve d loaded.dependencies none).library.lookup .functions "g").isSome) =
          some (some false) := by
    decide +kernel
  obtain ⟨loaded, hload, hmain⟩ := Parse.exists_of_map hlookup
  obtain ⟨d, hd, hnone⟩ := Parse.exists_of_map hmain
  obtain ⟨e, he, hdeclared⟩ :=
    Parse.exists_of_map (show (twoFolders.read (twoFolders.path "b/u")).toOption.map
      (fun e => e.statements.map fun n => n.declaration?.map fun f => (f.kind, f.name)) =
    some [some (.functionDef, "g")] by decide +kernel)
  have hfirst : twoFolders.Includes (twoFolders.path "m") "b/y" (twoFolders.path "b/y") :=
    Host.includes_of_fileNames (by decide +kernel)
      (List.mem_cons_of_mem "a/x" (List.mem_singleton_self "b/y")) (by decide +kernel)
  have hsecond : twoFolders.Includes (twoFolders.path "b/y") "u" (twoFolders.path "b/u") :=
    Host.includes_of_fileNames (by decide +kernel) (List.mem_singleton_self "u") (by decide +kernel)
  obtain ⟨⟨d', hd', hdocument⟩, -, -⟩ :=
    (hasAllReached_loadFile "m" _ (allWhole_afterLoads [])).2 loaded hload
  cases hd.symm.trans hd'
  refine ⟨loaded, d, e, hload, hd, he, by decide +kernel, .tail (.single ⟨"b/y", hfirst⟩)
    ⟨"u", hsecond⟩, hdocument, fun h => ?_⟩
  obtain ⟨n, hn, hname⟩ :=
    List.mem_map.1 (hdeclared ▸ List.mem_singleton_self (some (BindingKind.functionDef, "g")))
  obtain ⟨f, hf, hpair⟩ := Option.map_eq_some_iff.1 hname
  obtain ⟨hkind, hfname⟩ := Prod.mk.inj hpair
  have hsome := h n hn f hf .functions (by decide) hkind.symm
  rw [hfname, hnone] at hsome
  cases hsome

end Scad.Library
