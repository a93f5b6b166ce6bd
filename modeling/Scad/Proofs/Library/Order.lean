import Scad.Proofs.Library.Cache

/-! What was loaded before makes no difference to what loading a file gives: files that refer to
each other in a circle come out alike, whichever of them was loaded first. -/
namespace Scad.Library

open Load (Keeps)

namespace Host

variable (host : Host)

def surveyFile (deep : Bool) (file : String) : Except LoadFault Survey :=
  if host.files.holds (host.path file).names then host.survey deep host.depth [] (host.path file)
  else .error (.fileMissing file)

variable {host} in
theorem surveyFile_ne_tooDeep {deep : Bool} {file : String} :
    host.surveyFile deep file ≠ .error .tooDeep := by
  rw [surveyFile]
  split
  · exact survey_ne_tooDeep (host.unseen_lt_depth []) List.not_mem_nil
  · exact fun h => by cases h

def links (deep : Bool) (p : Path) : List (String × Path) :=
  match host.read p with
  | .error _ => []
  | .ok d => (followed deep d).filterMap fun reference => (host.target? p reference).map fun q =>
      (reference, q)

variable {host} {deep : Bool} {p q : Path}

theorem refers_iff_mem_links {reference : String} :
    host.Refers deep p reference q ↔ (reference, q) ∈ host.links deep p := by
  unfold Refers links
  cases host.read p with
  | error e =>
      constructor
      · rintro ⟨d, hd, -⟩
        cases hd
      · exact fun h => absurd h List.not_mem_nil
  | ok d =>
      rw [List.mem_filterMap]
      constructor
      · rintro ⟨_, ⟨⟩, href, ht⟩
        exact ⟨reference, href, by rw [ht]; rfl⟩
      · rintro ⟨r, href, ht⟩
        obtain ⟨t, ht, heq⟩ := Option.map_eq_some_iff.1 ht
        cases heq
        exact ⟨d, rfl, href, ht⟩

section

/-! A table of files with their links, which lead to files of the table. -/

variable (table : List (Path × List (String × Path)))
  (hlinks : ∀ e ∈ table, host.links deep e.1 = e.2) {root : Path}
  (hroot : root ∈ table.map Prod.fst) (hclosed : ∀ e ∈ table, ∀ l ∈ e.2, l.2 ∈ table.map Prod.fst)

include hlinks

theorem exists_link {reference : String} {x : Path} (hp : p ∈ table.map Prod.fst)
    (h : host.Refers deep p reference x) : ∃ e ∈ table, (reference, x) ∈ e.2 := by
  obtain ⟨e, he, rfl⟩ := List.mem_map.1 hp
  have hmem := refers_iff_mem_links.1 h
  rw [hlinks e he] at hmem
  exact ⟨e, he, hmem⟩

include hroot hclosed

theorem mem_of_reaches {x : Path} (h : host.Reaches deep root x) : x ∈ table.map Prod.fst := by
  induction h with
  | refl => exact hroot
  | tail _ hlead ih =>
      obtain ⟨reference, hrefers⟩ := hlead
      obtain ⟨e, he, hmem⟩ := exists_link table hlinks ih hrefers
      exact hclosed e he _ hmem

theorem unambiguous_of_table
    (hsame : ∀ e ∈ table, ∀ e' ∈ table, ∀ l ∈ e.2, ∀ l' ∈ e'.2, l.1 = l'.1 → l.2 = l'.2) :
    host.Unambiguous deep root := by
  intro p q reference x y hp hq hx hy
  obtain ⟨e, he, hl⟩ := exists_link table hlinks (mem_of_reaches table hlinks hroot hclosed hp) hx
  obtain ⟨e', he', hl'⟩ :=
    exists_link table hlinks (mem_of_reaches table hlinks hroot hclosed hq) hy
  exact hsame e he e' he' _ hl _ hl' rfl

end

end Host

section

variable {host : Host} {options : LoadOptions} {file : String}

/-- Loading a file keeps the cache sound, and finds what a survey finds if references mean
one file each. -/
theorem keeps_loadFile : Keeps (Valid host) (loadFile host options file) fun r =>
    host.Unambiguous options.withDependencies (host.path file) →
      Agree (Answers options.builtins) r (host.surveyFile options.withDependencies file) := by
  rw [loadFile, Host.surveyFile]
  split
  · refine (faithful_loadPath (Host.unseen_lt_depth host []) List.not_mem_nil).bind
      (fun found hfound => ?_) (fun e he hu => ?_)
    · refine .pure fun hu => ?_
      obtain ⟨s, hs, hm⟩ := (hfound hu).of_ok
      rw [hs]
      exact .ok hm.answers
    · rw [(he hu).of_error]
      exact .error e
  · exact .throw fun _ => .error _

theorem Agree.document_eq {r : Except LoadFault Loaded} {found : Except LoadFault Survey}
    {builtins : Option Builtins} (h : Agree (Answers builtins) r found) : r.map (·.document) =
      found.map fun s => (resolve s.document s.dependencies builtins).document := by
  cases h with
  | ok h => exact congrArg Except.ok h.document
  | error e => rfl

/-- What a loaded file gives is its survey, resolved, whatever is kept. -/
theorem document_loadFile {s : LoadState} (hs : Valid host s)
    (h : host.Unambiguous options.withDependencies (host.path file)) :
    ((loadFile host options file).outcome s).map (·.document) =
      (host.surveyFile options.withDependencies file).map fun found =>
        (resolve found.document found.dependencies options.builtins).document :=
  ((keeps_loadFile s hs).2 h).document_eq

def afterLoads (host : Host) (calls : List (LoadOptions × String)) : LoadState :=
  calls.foldl (fun s call => (loadFile host call.1 call.2).after s) LoadState.empty

theorem valid_afterLoads (calls : List (LoadOptions × String)) :
    Valid host (afterLoads host calls) :=
  List.foldlRecOn calls _ Valid.empty fun s hs _ _ => (keeps_loadFile s hs).1

/-- A file comes out the same, or fails with the same fault, whatever was loaded before. There is
always depth enough. -/
theorem loadFile_after_loads (calls : List (LoadOptions × String))
    (h : host.Unambiguous options.withDependencies (host.path file)) :
    ((loadFile host options file).outcome (afterLoads host calls)).map (·.document) =
        ((loadFile host options file).outcome LoadState.empty).map (·.document) ∧
      ((loadFile host options file).outcome LoadState.empty).map (·.document) ≠
        .error .tooDeep := by
  rw [document_loadFile (valid_afterLoads calls) h, document_loadFile Valid.empty h]
  refine ⟨rfl, fun hdeep => ?_⟩
  cases hs : host.surveyFile options.withDependencies file with
  | ok s =>
      rw [hs] at hdeep
      cases hdeep
  | error e =>
      rw [hs] at hdeep
      cases hdeep
      exact Host.surveyFile_ne_tooDeep hs

end

def textFile (text : String) (modified : Int) : File :=
  ⟨text.toList.map fun c => c.toNat.toUInt8, modified⟩

/-- Two files that include each other, the first of them also by way of a third. -/
def circle : Host where
  files := FileTable.ofFolder ["w"]
    |>.write ["w", "a"] (textFile "include <b>include <c>x=y;" 1)
    |>.write ["w", "b"] (textFile "include <a>function f(z)=z;y=f(z=1);" 1)
    |>.write ["w", "c"] (textFile "use <b>w=f(2);" 1)
  environment := ⟨[]⟩
  folder := ⟨false, ["w"]⟩

theorem circle_unambiguous : circle.Unambiguous true (circle.path "a") := by
  let a := circle.path "a"
  let b := circle.path "b"
  let c := circle.path "c"
  exact Host.unambiguous_of_table [(a, [("b", b), ("c", c)]), (b, [("a", a)]), (c, [("b", b)])]
    (by decide +kernel) (by decide +kernel) (by decide +kernel) (by decide +kernel)

/-- The circle was first cut elsewhere, a missing file was asked for, and a part was
loaded alone. -/
theorem loadFile_after_circle : circle.Unambiguous true (circle.path "a") ∧
    ((loadFile circle ⟨none, true⟩ "a").outcome LoadState.empty).isOk ∧
    ((loadFile circle ⟨none, true⟩ "a").outcome
        (afterLoads circle [(⟨none, true⟩, "b"), (⟨none, true⟩, "d"), (⟨none, false⟩, "c")])).map
          (·.document) =
      ((loadFile circle ⟨none, true⟩ "a").outcome LoadState.empty).map (·.document) ∧
    ((loadFile circle ⟨none, true⟩ "a").outcome LoadState.empty).map (·.document) ≠
      .error .tooDeep :=
  ⟨circle_unambiguous, by decide +kernel, loadFile_after_loads _ circle_unambiguous⟩

end Scad.Library
