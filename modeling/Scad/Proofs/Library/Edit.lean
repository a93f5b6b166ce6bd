import Scad.Proofs.Library.Order

/-! Files that change between loads. A kept document is looked at again only when its own file
changes, so that an edit is noticed by all who load if no kept document rests on the edited file. -/
namespace Scad.Library

/-! ### The table of files -/

namespace FileTable

variable {t : FileTable} {names other : List String} {file : File}

theorem lookup_filter_ne {files : List (List String × File)} (h : other ≠ names) :
    (files.filter (·.1 ≠ names)).lookup other = files.lookup other := by
  induction files with
  | nil => rfl
  | cons e rest ih =>
      obtain ⟨n, f⟩ := e
      by_cases hn : n = names
      · rw [List.filter_cons_of_neg (by simpa using hn), ih, List.lookup_cons,
          beq_false_of_ne (hn ▸ h)]
      · rw [List.filter_cons_of_pos (by simpa using hn), List.lookup_cons, List.lookup_cons, ih]

theorem file?_write : (t.write names file).file? other = if other = names then some file
    else t.file? other := by
  rw [file?, write, List.lookup_cons]
  by_cases h : other = names
  · rw [if_pos h, beq_iff_eq.2 h]
  · rw [if_neg h, beq_false_of_ne h]
    exact lookup_filter_ne h

/-- A file that is there, in folders that are there. -/
structure Stored (t : FileTable) (names : List String) : Prop where
  file : (t.file? names).isSome
  folders : ∀ a ∈ ancestors names.dropLast ++ [names.dropLast], t.isFolder a

theorem Stored.isFolder_write (h : t.Stored names) :
    (t.write names file).isFolder = t.isFolder := by
  have hfolders : (ancestors names.dropLast ++ [names.dropLast]).filter (!t.folders.contains ·) =
      [] := by
    refine List.filter_eq_nil_iff.2 fun a ha => ?_
    have hfolder := h.folders a ha
    rw [isFolder] at hfolder
    rw [hfolder]
    exact Bool.false_ne_true
  funext a
  rw [isFolder, write, makeFolder, hfolders, List.append_nil, isFolder]

theorem Stored.holds_write (h : t.Stored names) : (t.write names file).holds = t.holds := by
  funext a
  rw [holds, holds, h.isFolder_write, file?_write]
  split
  · rename_i ha
    rw [ha, h.file]
    rfl
  · rfl

theorem Stored.walk_write (h : t.Stored names) (steps here : List String) :
    (t.write names file).walk here steps = t.walk here steps := by
  induction steps generalizing here with
  | nil => rfl
  | cons s rest ih => rw [walk, walk, h.isFolder_write, h.holds_write, ih]

/-- Another text in a file does not change which files are there. -/
theorem Stored.isFile_write (h : t.Stored names) : (t.write names file).isFile = t.isFile := by
  have hsome : ∀ a, ((t.write names file).file? a).isSome = (t.file? a).isSome := by
    intro a
    rw [file?_write]
    split
    · rename_i ha
      rw [ha, h.file]
      rfl
    · rfl
  funext folder text
  rw [isFile, isFile]
  simp only [h.walk_write]
  cases t.walk (if text.toList.head? = some '/' then [] else folder.names) (Path.steps text) with
  | none => rfl
  | some a => exact hsome a

end FileTable

namespace Host

def edit (host : Host) (names : List String) (file : File) : Host :=
  { host with files := host.files.write names file }

variable {host host' : Host} {deep : Bool} {names : List String} {file : File} {p q x : Path}

theorem target?_edit (h : host.files.Stored names) (p : Path) :
    (host.edit names file).target? p = host.target? p := by
  funext reference
  rw [target?, target?, find?, find?, edit]
  dsimp only
  rw [h.isFile_write]
  rfl

theorem read_edit (h : p.names ≠ names) : (host.edit names file).read p = host.read p := by
  rw [read, read, edit]
  dsimp only
  rw [FileTable.file?_write, if_neg h]

section

variable (hread : ∀ x, host.Reaches deep p x → host.read x = host'.read x)
  (htarget : ∀ x, host.target? x = host'.target? x)

include hread htarget

theorem refers_congr {reference : String} (hq : host.Reaches deep p q)
    (h : host.Refers deep q reference x) :
    host'.Refers deep q reference x := by
  obtain ⟨d, hd, href, ht⟩ := h
  exact ⟨d, hread q hq ▸ hd, href, htarget q ▸ ht⟩

theorem reaches_congr (h : host.Reaches deep p x) : host'.Reaches deep p x := by
  induction h with
  | refl => exact .refl
  | tail hq hlead ih =>
      obtain ⟨reference, hrefers⟩ := hlead
      exact ih.tail ⟨reference, refers_congr hread htarget hq hrefers⟩

theorem unambiguous_congr (h : host'.Unambiguous deep p) : host.Unambiguous deep p :=
  fun _ _ reference _ _ ha hb hx hy => h _ _ reference _ _ (reaches_congr hread htarget ha)
    (reaches_congr hread htarget hb) (refers_congr hread htarget ha hx)
      (refers_congr hread htarget hb hy)

end

end Host

/-! ### Edits that are noticed -/

/-- The kept documents that rest on an edited file are those of the file itself, and its
time changes. -/
structure Noticed (host : Host) (s : LoadState) (names : List String) (file : File) : Prop where
  stored : host.files.Stored names
  kept : ∀ e ∈ s.cache, ∀ x, host.Reaches e.1.options.withDependencies e.1.path x →
    x.names = names →
    e.1.path.names = names ∧ e.2.modified ≠ file.modified

theorem Valid.edit {host : Host} {s : LoadState} {names : List String} {file : File}
    (hs : Valid host s) (h : Noticed host s names file) : Valid (host.edit names file) s := by
  intro e he f hf hm hu
  rw [Host.edit, FileTable.file?_write] at hf
  by_cases hnames : e.1.path.names = names
  · rw [if_pos hnames] at hf
    cases hf
    exact absurd hm.symm (h.kept e he e.1.path .refl hnames).2
  · rw [if_neg hnames] at hf
    have hread : ∀ x, host.Reaches e.1.options.withDependencies e.1.path x →
        host.read x = (host.edit names file).read x :=
      fun x hx => (Host.read_edit fun hx' => hnames (h.kept e he x hx hx').1).symm
    have htarget : ∀ x, host.target? x = (host.edit names file).target? x :=
      fun x => (Host.target?_edit h.stored x).symm
    obtain ⟨survey, hsurvey, hrest⟩ := hs e he f hf hm (Host.unambiguous_congr hread htarget hu)
    refine ⟨survey, ?_, hrest⟩
    rw [← hsurvey]
    exact (Host.survey_congr hread htarget (Host.unseen_lt_depth host [])
      (Host.unseen_lt_depth _ []) List.not_mem_nil List.not_mem_nil fun _ _ => Iff.rfl).symm

/-- Files, and what is kept of them. -/
structure Session where
  host : Host
  state : LoadState

/-- Files are loaded and edited in any order, where all edits are noticed. -/
inductive Session.From (host : Host) : Session → Prop where
  | start : From host ⟨host, LoadState.empty⟩
  | load {s : Session} (h : From host s) (options : LoadOptions) (file : String) :
      From host ⟨s.host, (loadFile s.host options file).after s.state⟩
  | edit {s : Session} (h : From host s) {names : List String} {file : File}
      (hn : Noticed s.host s.state names file) : From host ⟨s.host.edit names file, s.state⟩

theorem Session.From.valid {host : Host} {s : Session} (h : From host s) :
    Valid s.host s.state := by
  induction h with
  | start => exact Valid.empty
  | load _ options file ih => exact (keeps_loadFile _ ih).1
  | edit _ hn ih => exact ih.edit hn

/-- Where all edits are noticed, a file comes out as if nothing were kept. -/
theorem loadFile_after_edits {host : Host} {s : Session} (hs : Session.From host s)
    {options : LoadOptions} {file : String}
    (h : s.host.Unambiguous options.withDependencies (s.host.path file)) :
    ((loadFile s.host options file).outcome s.state).map (·.document) =
      ((loadFile s.host options file).outcome LoadState.empty).map (·.document) := by
  rw [document_loadFile hs.valid h, document_loadFile Valid.empty h]

/-- A file that uses a library. -/
def pair : Host where
  files := FileTable.ofFolder ["w"]
    |>.write ["w", "lib.scad"] (textFile "function f(a) = a;" 1)
    |>.write ["w", "main.scad"] (textFile "use <lib.scad>\nx = f(1);" 1)
  environment := ⟨[]⟩
  folder := ⟨false, ["w"]⟩

/-- What is kept of a file and its library when the file has been loaded. -/
theorem pair_kept :
    (afterLoads pair [(⟨none, true⟩, "main.scad")]).cache.map (fun e => (e.1, e.2.modified)) =
      [(⟨pair.path "main.scad", ⟨none, true⟩⟩, 1), (⟨pair.path "lib.scad", ⟨none, true⟩⟩, 1)] := by
  decide +kernel

/-- Nothing else rests on the file itself. -/
theorem pair_noticed :
    Noticed pair (afterLoads pair [(⟨none, true⟩, "main.scad")]) ["w", "main.scad"]
      (textFile "use <lib.scad>\ny = f(2);" 2) := by
  refine ⟨⟨by decide +kernel, by decide +kernel⟩, fun e he x hx hnames => ?_⟩
  have hkey := List.mem_map_of_mem (f := fun e : CacheKey × Kept => (e.1, e.2.modified)) he
  rw [pair_kept, List.mem_cons, List.mem_singleton] at hkey
  rcases hkey with hkey | hkey
  · obtain ⟨hkey, hmodified⟩ := Prod.mk.inj hkey
    rw [hkey, hmodified]
    decide +kernel
  · obtain ⟨hkey, -⟩ := Prod.mk.inj hkey
    rw [hkey] at hx
    have hmem := Host.mem_of_reaches [(pair.path "lib.scad", [])] (by decide +kernel)
      (by decide +kernel) (by decide +kernel) hx
    rw [List.mem_singleton.1 hmem] at hnames
    exact absurd hnames (by decide +kernel)

/-- The pair with another text in the file itself. -/
def pairEdited : Host := pair.edit ["w", "main.scad"] (textFile "use <lib.scad>\ny = f(2);" 2)

theorem loadFile_after_edit_of_root :
    Session.From pair ⟨pairEdited, afterLoads pair [(⟨none, true⟩, "main.scad")]⟩ ∧
    pairEdited.Unambiguous true (pairEdited.path "main.scad") ∧
    ((loadFile pairEdited ⟨none, true⟩ "main.scad").outcome
      (afterLoads pair [(⟨none, true⟩, "main.scad")])).map (·.document) =
      ((loadFile pairEdited ⟨none, true⟩ "main.scad").outcome LoadState.empty).map
        (·.document) := by
  have hfrom : Session.From pair ⟨pairEdited, afterLoads pair [(⟨none, true⟩, "main.scad")]⟩ :=
    (Session.From.start.load ⟨none, true⟩ "main.scad").edit pair_noticed
  have hu : pairEdited.Unambiguous true (pairEdited.path "main.scad") :=
    Host.unambiguous_of_table [(pairEdited.path "main.scad",
      [("lib.scad", pairEdited.path "lib.scad")]), (pairEdited.path "lib.scad", [])]
      (by decide +kernel) (by decide +kernel) (by decide +kernel) (by decide +kernel)
  exact ⟨hfrom, hu, loadFile_after_edits hfrom hu⟩

/-- The pair with another text in the library. -/
def pairStale : Host := pair.edit ["w", "lib.scad"] (textFile "function g(a) = a;" 2)

/-- An edit of the library changes its time, but is not noticed: the kept document still calls a
function that is gone. -/
theorem loadFile_stale : pairStale.Unambiguous true (pairStale.path "main.scad") ∧
    ((pair.files.file? ["w", "lib.scad"]).map (·.modified),
      (pairStale.files.file? ["w", "lib.scad"]).map (·.modified)) = (some 1, some 2) ∧
    ((loadFile pairStale ⟨none, true⟩ "main.scad").outcome
      (afterLoads pair [(⟨none, true⟩, "main.scad")])).map (·.document) ≠
      ((loadFile pairStale ⟨none, true⟩ "main.scad").outcome LoadState.empty).map (·.document) := by
  refine ⟨?_, by decide +kernel, fun h => ?_⟩
  · exact Host.unambiguous_of_table [(pairStale.path "main.scad",
      [("lib.scad", pairStale.path "lib.scad")]), (pairStale.path "lib.scad", [])]
      (by decide +kernel) (by decide +kernel) (by decide +kernel) (by decide +kernel)
  · -- The kept document has no unbound name, the other one has.
    have herrors := congrArg (fun r => (r.map (·.bindingErrors.length)).toOption) h
    have hkept : ((((loadFile pairStale ⟨none, true⟩ "main.scad").outcome
        (afterLoads pair [(⟨none, true⟩, "main.scad")])).map (·.document)).map
          (·.bindingErrors.length)).toOption = some 0 := by decide +kernel
    have hfresh : ((((loadFile pairStale ⟨none, true⟩ "main.scad").outcome LoadState.empty).map
        (·.document)).map (·.bindingErrors.length)).toOption = some 1 := by decide +kernel
    rw [hkept, hfresh] at herrors
    cases herrors

end Scad.Library
