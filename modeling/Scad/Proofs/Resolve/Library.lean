import Scad.Proofs.Resolve.Included
import Scad.Proofs.Resolve.Scratch

/-! The library: the scope around a resolved document. A dependency's variables are in it if the
first file reference that leads to the dependency includes. -/
namespace Scad

namespace Resolve

variable {deps : Dependencies} {d e : Document} {n : Node}

/-- The scope around the whole file, where what file references bring in is defined. -/
def Resolution.library (r : Resolution) : Scope := r.scope.tail

section

variable (env : Environment) (f : Frame) (around : Scope)

theorem hoistAll_around (ns : List Node) : ∃ f', hoistAll env (f :: around) ns = f' :: around := by
  induction ns generalizing f with
  | nil => exact ⟨f, rfl⟩
  | cons n ns ih =>
      have hn : ∃ f', hoist env (f :: around) n = f' :: around := by
        unfold hoist
        split <;> exact ⟨_, rfl⟩
      obtain ⟨f', hf'⟩ := hn
      rw [hoistAll, List.foldl_cons, hf']
      exact ih f'

/-- Statements define names in the innermost frame only. -/
theorem statement_around (n : Node) (p : Progress) :
    ∃ f', ((statement env n (f :: around)).run p).1.2 = f' :: around := by
  unfold statement
  split
  · exact ⟨_, rfl⟩
  all_goals exact ⟨f, rfl⟩

theorem statements_around (ns : List Node) (p : Progress) :
    ∃ f', ((statements env ns (f :: around)).run p).1.2 = f' :: around := by
  induction ns generalizing f p with
  | nil => exact ⟨f, by rw [statements]; rfl⟩
  | cons n ns ih =>
      obtain ⟨f', hf'⟩ := statement_around env f around n p
      rw [statements]
      show ∃ g, ((statements env ns ((statement env n (f :: around)).run p).1.2).run
        ((statement env n (f :: around)).run p).2).1.2 = g :: around
      rw [hf']
      exact ih f' _

end

/-- The library holds what the file references bring in, whatever else the document says. -/
theorem library_resolve (d : Document) (deps : Dependencies) (builtins : Option Builtins) :
    (resolve d deps builtins).library = [(importAll deps d).frame] := by
  obtain ⟨f, hf⟩ :=
    hoistAll_around (environment deps d builtins) Frame.empty [(importAll deps d).frame]
    d.statements
  obtain ⟨f', hf'⟩ :=
    statements_around (environment deps d builtins) f [(importAll deps d).frame] d.statements
    ⟨[], false⟩
  rw [← hf] at hf'
  exact congrArg List.tail hf'

theorem lookup_library (d : Document) (deps : Dependencies) (builtins : Option Builtins)
    (c : NameClass) (name : String) : (resolve d deps builtins).library.lookup c name =
      ((brought deps d.origin d.statements).frame.table c).lookup name := by
  rw [library_resolve, importAll_eq, Scope.lookup, List.findSome?_singleton]
  rfl

/-- A dependency's variables are in the library if the first file reference that leads to it is one
that includes, and none of them is if that one does not include. -/
theorem variables_of_first (d : Document) (deps : Dependencies) (builtins : Option Builtins)
    (hsame : ∀ e ∈ deps.map Prod.snd, ∀ e' ∈ deps.map Prod.snd, e.origin = e'.origin → e = e')
    (hother : ∀ e ∈ deps.map Prod.snd, e.origin ≠ d.origin) {before after : List Node} {n : Node}
    (hstatements : d.statements = before ++ n :: after) (e : Document) :
    (LeadsBy deps .everything n e → (∀ m ∈ before, ¬ LeadsBy deps .definitions m e) →
      ∀ m ∈ e.statements, ∀ t v, m.form = .assignment t v →
        ((resolve d deps builtins).library.lookup .vars (t.name?.getD "")).isSome) ∧
    (LeadsBy deps .definitions n e → (∀ m ∈ before, ¬ LeadsBy deps .everything m e) →
      ∀ name b, (resolve d deps builtins).library.lookup .vars name = some b →
        b.origin ≠ some e.origin) := by
  have hsplit : brought deps d.origin d.statements =
      after.foldl (importStatement deps) (brought deps d.origin (before ++ [n])) := by
    rw [hstatements, brought, brought, ← List.foldl_append, List.append_assoc]
    rfl
  have hupto : ∀ inclusion other : Inclusion, inclusion ≠ other → LeadsBy deps inclusion n e →
      (∀ m ∈ before, ¬ LeadsBy deps other m e) → ∀ m ∈ before ++ [n], ¬ LeadsBy deps other m e := by
    rintro inclusion other hne ⟨file, _, hf, -⟩ hbefore m hm ⟨file', d', hf', hrest⟩
    rcases List.mem_append.1 hm with hm | hm
    · exact hbefore m hm ⟨file', d', hf', hrest⟩
    · cases List.mem_singleton.1 hm
      cases hf.symm.trans hf'
      exact hne rfl
  refine ⟨fun hlead hbefore m hm t v hf => ?_, fun hlead hbefore name b hb => ?_⟩
  · have hfinished := finished_of_included hsame hother hlead.mem
      (hupto .everything .definitions (by decide) hlead hbefore)
        (seen_of_leadsBy hsame hother hlead before)
    rw [lookup_library, hsplit]
    -- What stands behind only adds to the library.
    exact (hfinished.mono (extends_foldl hsame _ after)).variable hm hf
  · rw [lookup_library, hsplit] at hb
    -- The dependency has been visited, so it is not gone through again.
    exact (unbound_of_used hsame hlead.mem
      (hupto .definitions .everything (by decide) hlead hbefore)).foldl hsame
      (seen_of_leadsBy hsame hother hlead before) after name b hb

def reference? (n : Node) : Option (Inclusion × String) :=
  match n.form with
  | .fileReference inclusion file => some (inclusion, file)
  | _ => none

theorem form_of_reference? {inclusion : Inclusion} {file : String}
    (h : reference? n = some (inclusion, file)) :
    n.form = .fileReference inclusion file := by
  unfold reference? at h
  split at h
  · rename_i hf
    cases h
    exact hf
  · cases h

/-- A document that includes nothing reaches no other one. -/
theorem eq_of_reaches (hd : ∀ n ∈ d.statements, ∀ file, reference? n ≠ some (.everything, file))
    (h : Reaches deps d e) : d = e := by
  rcases h.cases_head with he | ⟨c, ⟨n, hn, file, hf, -⟩, -⟩
  · exact he
  · exact absurd (by rw [reference?, hf]) (hd n hn file)

/-- A text with file references, and the files behind them; the second of these refers
to the third. -/
def nestedFiles : List Token × List Token × List Token × List Token :=
  ((tokenize "use <other>include <lib>use <more>y = x;" "t").tokens,
    (tokenize "z = 2;" "other").tokens, (tokenize "include <more>" "lib").tokens,
    (tokenize "x = 1;" "more").tokens)

/-- The third file is reached by way of the second before it is used. -/
theorem variables_of_nested :
    ∃ p o q r, parse nestedFiles.1 none = .ok p ∧ parse nestedFiles.2.1 none = .ok o ∧
    parse nestedFiles.2.2.1 none = .ok q ∧ parse nestedFiles.2.2.2 none = .ok r ∧ ∀ deps,
      deps = [("other", o.document), ("lib", q.document), ("more", r.document)] →
      ∀ m ∈ r.document.statements, ∀ t v, m.form = .assignment t v →
        ((resolve p.document deps none).library.lookup .vars (t.name?.getD "")).isSome := by
  obtain ⟨p, hp, hpfacts⟩ := Parse.exists_of_map (show (parse nestedFiles.1 none).toOption.map
      (fun p => (p.document.origin, p.document.statements.map reference?)) =
    some ("t", [some (.definitions, "other"), some (.everything, "lib"),
    some (.definitions, "more"), none]) by
      decide +kernel)
  obtain ⟨o, ho, hofacts⟩ := Parse.exists_of_map (show (parse nestedFiles.2.1 none).toOption.map
      (fun o => (o.document.origin, o.document.statements.map reference?)) =
      some ("other", [none]) by decide +kernel)
  obtain ⟨q, hq, hqfacts⟩ := Parse.exists_of_map (show (parse nestedFiles.2.2.1 none).toOption.map
      (fun q => (q.document.origin, q.document.statements.map reference?)) =
    some ("lib", [some (.everything, "more")]) by decide +kernel)
  obtain ⟨r, hr, hrorigin⟩ := Parse.exists_of_map (show (parse nestedFiles.2.2.2 none).toOption.map
      (fun r => r.document.origin) = some "more" by decide +kernel)
  obtain ⟨hporigin, hpreferences⟩ := Prod.mk.inj hpfacts
  obtain ⟨hoorigin, horeferences⟩ := Prod.mk.inj hofacts
  obtain ⟨hqorigin, hqreferences⟩ := Prod.mk.inj hqfacts
  refine ⟨p, o, q, r, hp, ho, hq, hr, ?_⟩
  rintro deps rfl
  obtain ⟨uses, rest, hstatements, huses, hrest⟩ := List.map_eq_cons_iff.1 hpreferences
  obtain ⟨includes, more, rfl, hincludes, -⟩ := List.map_eq_cons_iff.1 hrest
  obtain ⟨nested, _, hnested, hmore, -⟩ := List.map_eq_cons_iff.1 hqreferences
  have hlead : LeadsBy [("other", o.document), ("lib", q.document), ("more", r.document)]
    .everything includes
      r.document :=
    ⟨"lib", q.document, form_of_reference? hincludes, rfl,
      .single ⟨nested, hnested ▸ List.mem_cons_self .., "more", form_of_reference? hmore, rfl⟩⟩
  have hbefore : ∀ m ∈ [uses], ¬ LeadsBy [("other", o.document), ("lib", q.document),
    ("more", r.document)]
      .definitions m r.document := by
    rintro m hm ⟨file, d, hf, hfind, hreach⟩
    cases List.mem_singleton.1 hm
    cases (form_of_reference? huses).symm.trans hf
    cases hfind
    have heq := eq_of_reaches (fun n hn file hn' => ?_) hreach
    · exact absurd (congrArg Document.origin heq) (by rw [hoorigin, hrorigin]; decide)
    · have hmem := List.mem_map_of_mem (f := reference?) hn
      rw [horeferences, hn'] at hmem
      cases List.mem_singleton.1 hmem
  have hsplit : p.document.statements = [uses] ++ includes :: more := hstatements
  refine (variables_of_first p.document _ none ?_ ?_ hsplit r.document).1 hlead hbefore
  · simp [hoorigin, hqorigin, hrorigin]
  · simp [hoorigin, hqorigin, hrorigin, hporigin]

def assigned? (n : Node) : Option (Option String) :=
  match n.form with
  | .assignment t _ => some t.name?
  | _ => none

/-- A file that is used, and then included. -/
def usedBefore : List Token × List Token :=
  ((tokenize "use <lib>include <lib>y = x;" "t").tokens, (tokenize "x = 1;" "lib").tokens)

/-- The file is not gone through again when it is included, and its variable is lost. -/
theorem variables_lost_after_use :
    ∃ p q, parse usedBefore.1 none = .ok p ∧ parse usedBefore.2 none = .ok q ∧
      q.document.origin ≠ p.document.origin ∧
    (∃ n ∈ p.document.statements, n.form = .fileReference .everything "lib") ∧
    ¬ ∀ m ∈ q.document.statements, ∀ t v, m.form = .assignment t v →
      ((resolve p.document [("lib", q.document)] none).library.lookup .vars
        (t.name?.getD "")).isSome := by
  obtain ⟨p, hp, hpfacts⟩ := Parse.exists_of_map (show (parse usedBefore.1 none).toOption.map
      (fun p => (p.document.origin, p.document.statements.map reference?)) =
    some ("t", [some (.definitions, "lib"), some (.everything, "lib"), none]) by decide +kernel)
  obtain ⟨q, hq, hqfacts⟩ := Parse.exists_of_map (show (parse usedBefore.2 none).toOption.map
      (fun q => (q.document.origin, q.document.statements.map assigned?)) =
      some ("lib", [some (some "x")]) by
    decide +kernel)
  have hlookup : ((parse usedBefore.1 none).toOption.bind fun p =>
    (parse usedBefore.2 none).toOption.map fun q =>
      ((resolve p.document [("lib", q.document)] none).library.lookup .vars "x").isSome) =
        some false := by
    decide +kernel
  rw [hp, hq] at hlookup
  have hnone : ((resolve p.document [("lib", q.document)] none).library.lookup .vars "x").isSome =
      false :=
    Option.some.inj hlookup
  obtain ⟨hporigin, hpreferences⟩ := Prod.mk.inj hpfacts
  obtain ⟨hqorigin, hqassigned⟩ := Prod.mk.inj hqfacts
  have hinclude : some (Inclusion.everything, "lib") ∈ p.document.statements.map reference? := by
    rw [hpreferences]
    simp
  obtain ⟨n, hn, hreference⟩ := List.mem_map.1 hinclude
  refine ⟨p, q, hp, hq, by rw [hporigin, hqorigin]; decide, ⟨n, hn, form_of_reference? hreference⟩,
    fun h => ?_⟩
  obtain ⟨m, hm, hassigned⟩ :=
    List.mem_map.1 (hqassigned ▸ List.mem_singleton_self (some (some "x")))
  unfold assigned? at hassigned
  split at hassigned
  · rename_i t v hf
    have hsome := h m hm t v hf
    rw [Option.some.inj hassigned, Option.getD_some, hnone] at hsome
    cases hsome
  · cases hassigned

end Resolve

end Scad
