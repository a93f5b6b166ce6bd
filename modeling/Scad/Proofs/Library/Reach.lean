import Mathlib.Logic.Relation
import Scad.Library.Load
import Scad.Proofs.Resolve.Targets

/-! Which files belong to a file: those that its references lead to, step by step. -/
namespace Scad.Library

/-- A way that avoids some places leaves its start for good at some point. -/
theorem cases_past {α : Type} {step : α → α → Prop} {avoided : List α} {p x : α}
    (h : Relation.ReflTransGen (fun a b => step a b ∧ b ∉ avoided) p x) :
    x = p ∨ ∃ t, step p t ∧ t ∉ avoided ++ [p] ∧
      Relation.ReflTransGen (fun a b => step a b ∧ b ∉ avoided ++ [p]) t x := by
  induction h with
  | refl => exact .inl rfl
  | @tail b c _ hstep ih =>
      obtain ⟨hlead, hc⟩ := hstep
      by_cases hcp : c = p
      · exact .inl hcp
      · have hnew : c ∉ avoided ++ [p] := by simp [hc, hcp]
        right
        rcases ih with rfl | ⟨t, ht, htnew, hrest⟩
        · exact ⟨c, hlead, hnew, .refl⟩
        · exact ⟨t, ht, htnew, hrest.tail ⟨hlead, hnew⟩⟩

namespace Host

variable (host : Host)

/-- What a file says, before its names are resolved. -/
def read (path : Path) : Except LoadFault Document :=
  match host.files.file? path.names with
  | none => .error (.isFolder path)
  | some file => do
    let source ← Load.sourceText file
    let (_, parsed) ← (parseText source path.text).mapError .numeral
    return parsed.document

/-- The file that a reference in the file at `path` names. -/
def target? (path : Path) (reference : String) : Option Path :=
  (host.find? path.text reference).map host.path

def followed (deep : Bool) (d : Document) : List String := if deep then Load.topReferences d else []

/-- The file at `p` refers to the file at `q` by a text. -/
def Refers (deep : Bool) (p : Path) (reference : String) (q : Path) : Prop :=
  ∃ d, host.read p = .ok d ∧ reference ∈ followed deep d ∧ host.target? p reference = some q

def Leads (deep : Bool) (p q : Path) : Prop := ∃ reference, host.Refers deep p reference q

def Reaches (deep : Bool) : Path → Path → Prop := Relation.ReflTransGen (host.Leads deep)

/-- One file is reached from another without going into files of `loading`. -/
def ReachesPast (deep : Bool) (loading : List Path) : Path → Path → Prop :=
  Relation.ReflTransGen fun p q => host.Leads deep p q ∧ q ∉ loading

/-- Among the files that belong to a file, a reference text means one file, wherever it
stands, or none. -/
def Unambiguous (deep : Bool) (root : Path) : Prop :=
  ∀ p q reference x y, host.Reaches deep root p → host.Reaches deep root q →
    host.Refers deep p reference x → host.Refers deep q reference y → x = y

variable {host} {deep : Bool} {loading : List Path} {p q x : Path}

theorem read_of_missing (h : host.files.file? p.names = none) :
    host.read p = .error (.isFolder p) := by
  rw [read, h]

theorem read_of_file {file : File} (h : host.files.file? p.names = some file) :
    host.read p = (Load.sourceText file).bind fun source =>
      ((parseText source p.text).mapError .numeral).map (·.2.document) := by
  rw [read, h]
  rfl

/-- A file that can be read is there, and its text was parsed. -/
theorem parsed_of_read {d : Document} (h : host.read p = .ok d) :
    (host.files.file? p.names).isSome ∧ ∃ tokens parsed faults, parse tokens (some p.text) =
      .ok parsed ∧ d = { parsed.document with lexErrors := faults } := by
  cases hf : host.files.file? p.names with
  | none =>
      rw [read_of_missing hf] at h
      cases h
  | some file =>
      refine ⟨rfl, ?_⟩
      rw [read_of_file hf] at h
      cases hsource : Load.sourceText file with
      | error fault =>
          rw [hsource] at h
          cases h
      | ok source =>
          rw [hsource, Except.bind, parseText] at h
          cases hparse : parse (tokenize source p.text).tokens (some p.text) with
          | error fault =>
              rw [hparse] at h
              cases h
          | ok parsed =>
              rw [hparse] at h
              cases h
              exact ⟨_, parsed, _, hparse, rfl⟩

theorem read_ne_tooDeep (p : Path) : host.read p ≠ .error .tooDeep := by
  intro h
  cases hf : host.files.file? p.names with
  | none =>
      rw [read_of_missing hf] at h
      cases h
  | some file =>
      rw [read_of_file hf, Load.sourceText] at h
      cases hdecode : Text.Utf8.decode file.content with
      | error fault =>
          rw [hdecode] at h
          cases h
      | ok cs =>
          rw [hdecode, Except.bind] at h
          cases hparse : parseText (String.ofList (Text.joinLineEnds cs)) p.text with
          | error fault =>
              rw [hparse] at h
              cases h
          | ok parsed =>
              rw [hparse] at h
              cases h

/-- Documents that are read have their file's path as origin, and an arena that holds
their nodes. -/
theorem read_spec {d : Document} (h : host.read p = .ok d) : d.origin = p.text ∧ d.Consistent ∧
    (d.arena.entries.map Prod.fst).Nodup := by
  obtain ⟨-, tokens, parsed, faults, hparse, rfl⟩ := parsed_of_read h
  obtain ⟨s, hs⟩ := Parse.produced_of_ok hparse
  refine ⟨hs.name, ?_, ?_⟩
  · obtain ⟨hshaped, hstored⟩ := Parse.consistent_of_ok hparse
    exact ⟨hshaped, hstored⟩
  · show (parsed.document.arena.entries.map Prod.fst).Nodup
    rw [hs.arena, Arena.ofMade, List.map_map]
    exact distinct_of_numbered hs.numbered

theorem Unambiguous.of_reaches (h : host.Unambiguous deep p) (hq : host.Reaches deep p q) :
    host.Unambiguous deep q :=
  fun _ _ reference _ _ ha hb => h _ _ reference _ _ (hq.trans ha) (hq.trans hb)

theorem Leads.reaches (h : host.Leads deep p q) : host.Reaches deep p q :=
  Relation.ReflTransGen.single h

theorem Reaches.past (h : host.Reaches deep p x) : host.ReachesPast deep [] p x :=
  Relation.ReflTransGen.mono (fun _ _ hlead => ⟨hlead, List.not_mem_nil⟩) p x h

theorem ReachesPast.cases (h : host.ReachesPast deep loading p x) :
    x = p ∨ ∃ t, host.Leads deep p t ∧ t ∉ loading ++ [p] ∧
    host.ReachesPast deep (loading ++ [p]) t x :=
  cases_past h

/-- A way into some of the files has a first step into them. -/
theorem Reaches.enters (h : host.Reaches deep p x) (hp : p ∉ loading) (hx : x ∈ loading) :
    ∃ y z, host.ReachesPast deep loading p y ∧ host.Leads deep y z ∧ z ∈ loading := by
  have hcases : (x ∉ loading ∧ host.ReachesPast deep loading p x) ∨
      ∃ y z, host.ReachesPast deep loading p y ∧ host.Leads deep y z ∧ z ∈ loading := by
    clear hx
    induction h with
    | refl => exact .inl ⟨hp, .refl⟩
    | @tail b c _ hstep ih =>
        rcases ih with ⟨-, hb⟩ | hfound
        · by_cases hc : c ∈ loading
          · exact .inr ⟨b, c, hb, hstep, hc⟩
          · exact .inl ⟨hc, hb.tail ⟨hstep, hc⟩⟩
        · exact .inr hfound
  rcases hcases with ⟨hout, -⟩ | hfound
  · exact absurd hx hout
  · exact hfound

end Host

end Scad.Library
