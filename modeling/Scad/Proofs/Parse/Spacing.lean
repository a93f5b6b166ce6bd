import Scad.Proofs.Parse.Acceptance
import Scad.Proofs.Parse.Lockstep.Statement
import Scad.Proofs.Parse.Recovery

/-! Parsing depends on the kinds and texts of tokens, not on their places, as long as no two tokens
and not the end marker begin at one place. -/
namespace Scad

open List (Forall₂)
open Parse (source body initial program)

def Token.spelling (t : Token) : TokenKind × String := (t.kind, t.text)

/-- Tokens that begin one behind the other in a text. -/
structure Placed (ts : List Token) : Prop where
  rising : ts.Pairwise (·.span.start.offset < ·.span.start.offset)
  inside : ∀ t ∈ ts, 0 ≤ t.span.start.offset

/-- Only one token of the list begins at an offset. -/
theorem Placed.index_eq {ts : List Token} (h : Placed ts) {i j : Nat} {t u : Token}
    (hi : ts[i]? = some t) (hj : ts[j]? = some u) (ho : t.span.start.offset = u.span.start.offset) :
    i = j := by
  obtain ⟨hi', rfl⟩ := List.getElem?_eq_some_iff.1 hi
  obtain ⟨hj', rfl⟩ := List.getElem?_eq_some_iff.1 hj
  have hrising := List.pairwise_iff_getElem.1 h.rising
  rcases Nat.lt_trichotomy i j with hlt | rfl | hlt
  · exact absurd ho (Int.ne_of_lt (hrising i j hi' hj' hlt))
  · rfl
  · exact absurd ho.symm (Int.ne_of_lt (hrising j i hj' hi' hlt))

/-- Two places at which tokens of one number begin. -/
def Opposite (ts us : List Token) (p q : Position) : Prop :=
  ∃ (i : Nat) (t u : Token), ts[i]? = some t ∧ us[i]? = some u ∧ t.span.start = p ∧ u.span.start = q

namespace Parse

/-- The tokens that parsing sees: all before the first end marker, and that marker, which is made if
there is none. -/
def seen (tokens : List Token) (origin : Option String) : List Token :=
  body tokens ++ [(source tokens origin).stop]

/-- The starts of tokens belong together by their number. Nothing is asked of where tokens end. -/
def Link.spaced {ts us : List Token} (ht : Placed ts) (hu : Placed us) : Link where
  starts := Opposite ts us
  stops _ _ := True
  together := by
    rintro p p' q q' ⟨i, t, u, ht₁, hu₁, rfl, rfl⟩ ⟨j, t', u', ht₂, hu₂, rfl, rfl⟩
    constructor
    · intro ho
      obtain rfl := ht.index_eq ht₁ ht₂ ho
      rw [Option.some.inj (hu₁.symm.trans hu₂)]
    · intro ho
      obtain rfl := hu.index_eq hu₁ hu₂ ho
      rw [Option.some.inj (ht₁.symm.trans ht₂)]
  inside := by
    rintro p p' ⟨i, t, u, ht₁, hu₁, rfl, rfl⟩
    have := ht.inside t (List.mem_of_getElem? ht₁)
    have := hu.inside u (List.mem_of_getElem? hu₁)
    omega
  clip _ _ := trivial

theorem Link.tokens_spaced {ts us : List Token} (ht : Placed ts) (hu : Placed us)
    (h : ts.map Token.spelling = us.map Token.spelling) :
    Forall₂ (Link.spaced ht hu).Tokens ts us := by
  have hlength : ts.length = us.length := by simpa using congrArg List.length h
  refine List.forall₂_iff_get.2 ⟨hlength, fun i hi hj => ?_⟩
  have hspelling : ts[i].spelling = us[i].spelling := by
    have hat := congrArg (·[i]?) h
    simpa [hi, hj] using hat
  have hspans : (Link.spaced ht hu).Spans ts[i].span us[i].span :=
    ⟨⟨i, ts[i], us[i], List.getElem?_eq_getElem hi, List.getElem?_eq_getElem hj, rfl, rfl⟩, trivial⟩
  rw [List.get_eq_getElem, List.get_eq_getElem]
  revert hspelling hspans
  generalize ts[i] = t
  generalize us[i] = u
  obtain ⟨kind, text, span⟩ := t
  obtain ⟨kind', text', span'⟩ := u
  intro hspelling hspans
  cases hspelling
  exact .mk hspans

/-- At the beginning, the token consumed last is the first one. -/
theorem previous_initial (tokens : List Token) (origin : Option String) :
    (initial tokens origin).previous = ahead (source tokens origin) (body tokens) := by
  cases tokens with
  | nil => rfl
  | cons t ts =>
      by_cases hk : t.kind = .eof
      · have hbody : body (t :: ts) = [] := by simp [body, hk]
        have hstop : (source (t :: ts) origin).stop = t := by simp [source, hk]
        rw [hbody]
        exact hstop.symm
      · have hbody : body (t :: ts) = t :: body ts := by simp [body, hk]
        rw [hbody]
        rfl

theorem Link.states_initial {L : Link} {a b : List Token} {origin origin' : Option String}
    (hbody : Forall₂ L.Tokens (body a) (body b))
    (hstop : L.Tokens (source a origin).stop (source b origin').stop) :
    L.States (initial a origin) (initial b origin') where
  rest := hbody
  position := rfl
  depth := rfl
  previous := by
    rw [previous_initial, previous_initial]
    exact InLockstep.head hstop hbody
  made := .nil
  events := .nil
  lastErrorAt := .none

end Parse

namespace Parse

/-- Token lists that are spelled alike are read side by side. -/
theorem lockstep_seen {a b : List Token} {origin origin' : Option String}
    (ha : Placed (seen a origin)) (hb : Placed (seen b origin'))
    (h : (seen a origin).map Token.spelling = (seen b origin').map Token.spelling) :
    (Link.spaced ha hb).Outcomes (Forall₂ (Link.spaced ha hb).Nodes)
      (program (source a origin) (initial a origin))
        (program (source b origin') (initial b origin')) := by
  have hall := Link.tokens_spaced ha hb h
  have hlength : (body a).length = (body b).length := by simpa [seen] using hall.length_eq
  have htake : (seen a origin).take (body b).length = body a := hlength ▸ List.take_left
  have hdrop : (seen a origin).drop (body b).length = [(source a origin).stop] :=
    hlength ▸ List.drop_left
  have hbody : Forall₂ (Link.spaced ha hb).Tokens (body a) (body b) :=
    htake ▸ List.forall₂_take_append _ _ _ hall
  have hstop : (Link.spaced ha hb).Tokens (source a origin).stop (source b origin').stop :=
    (List.forall₂_cons.1 (hdrop ▸ List.forall₂_drop_append _ (body b) _ hall)).1
  exact lockstep_program _ _ _ _ _ hstop (Link.states_initial hbody hstop)

theorem Produced.errors {spelling : Spelling} {tokens : List Token} {origin : Option String}
    {p : Parsed} {s : State} (hs : Produced spelling tokens origin p s)
    (h : parse tokens origin = .ok p) :
    p.document.syntaxErrors = s.errors := by
  rw [parse_eq, hs.run] at h
  exact congrArg (·.document.syntaxErrors) (Except.ok.inj h).symm

end Parse

/-- Two outcomes of parsing that differ in nothing but places. -/
structure Coinciding (ts us : List Token) (p q : Parse.Parsed) : Prop where
  same : p.document.sameStatements q.document
  statements : p.document.statements.map Node.numbered = q.document.statements.map Node.numbered
  /-- Every node that was made, also those of statements that were given up. -/
  arena : p.document.arena.entries.map (fun e => (e.1, e.2.numbered)) =
    q.document.arena.entries.map (fun e => (e.1, e.2.numbered))
  errors : Forall₂ (fun d e => d.fault = e.fault ∧ d.message = e.message ∧
    Opposite ts us d.span.start e.span.start) p.document.syntaxErrors q.document.syntaxErrors

namespace Parse

theorem Link.findings {L : Link} {es es' : List Event} (h : Forall₂ L.Events es es') :
    Forall₂ L.Findings (es.filterMap Event.error?) (es'.filterMap Event.error?) := by
  refine List.rel_filterMap (R := L.Events) ?_ h
  rintro _ _ (hd | _ | _ | _)
  · exact .some hd
  · exact .none
  · exact .none
  · exact .none

theorem Link.entries {L : Link} {ns ns' : List Node} (h : Forall₂ L.Nodes ns ns') :
    (Arena.ofMade ns).entries.map (fun e => (e.1, e.2.numbered)) =
      (Arena.ofMade ns').entries.map (fun e => (e.1, e.2.numbered)) := by
  induction h with
  | nil => rfl
  | cons hn _ ih =>
      refine List.cons_eq_cons.2 ⟨?_, ih⟩
      exact Prod.ext (Node.id_of_numbered hn.numbered) hn.numbered

theorem coinciding_of_states {ts us : List Token} {ht : Placed ts} {hu : Placed us}
    {src src' : Source} {ns ns' : List Node} {s s' : State}
    (hn : Forall₂ (Link.spaced ht hu).Nodes ns ns') (hs : (Link.spaced ht hu).States s s') :
    Coinciding ts us
      ⟨⟨src.origin, ns, .ofMade s.made.toList, [], s.errors, []⟩, s.events.toList⟩
      ⟨⟨src'.origin, ns', .ofMade s'.made.toList, [], s'.errors, []⟩, s'.events.toList⟩ where
  same := Node.sameAll_of_bare (Node.map_bare_of_numbered (Link.numbered_list hn))
  statements := Link.numbered_list hn
  arena := Link.entries hs.made
  errors := (Link.findings hs.events).imp fun _ _ h => ⟨h.fault, h.message, h.span.start⟩

end Parse

open Parse (seen)

/-- Token lists that are spelled alike are parsed alike, wherever their tokens stand. -/
theorem parse_spacing {a b : List Token} {origin origin' : Option String}
    (ha : Placed (seen a origin)) (hb : Placed (seen b origin'))
    (h : (seen a origin).map Token.spelling = (seen b origin').map Token.spelling) :
    match parse a origin, parse b origin' with
    | .ok p, .ok q => Coinciding (seen a origin) (seen b origin') p q
    | .error fault, .error fault' => fault = fault'
    | _, _ => False := by
  have hrun := Parse.lockstep_seen ha hb h
  rw [Parse.parse_eq, Parse.parse_eq]
  cases hr : program (source a origin) (initial a origin) <;>
    cases hr' : program (source b origin') (initial b origin') <;> rw [hr, hr'] at hrun <;>
    try exact hrun.elim
  case done.done => exact Parse.coinciding_of_states hrun.1 hrun.2
  case abandoned.abandoned => exact Parse.coinciding_of_states .nil hrun
  case broken.broken => exact hrun

namespace Token

def between (k : TokenKind) (text : String) (start stop : Int) : Token :=
  ⟨k, text, ⟨"", ⟨start, 1, start + 1⟩, ⟨stop, 1, stop + 1⟩⟩⟩

end Token

open Token (between)

/-- `use module`, where the last word ends at an offset. -/
def useModule (stop : Int) : List Token :=
  [between (.keyword .useFile) "use" 0 3, between (.keyword .moduleDef) "module" 4 stop]

/-- `use  module`, with an end marker behind it. -/
def useModuleSpaced : List Token :=
  [between (.keyword .useFile) "use" 2 5, between (.keyword .moduleDef) "module" 9 15,
    between .eof "" 20 20]

theorem parse_spacing_useModule :
    Placed (seen (useModule 10) none) ∧ Placed (seen useModuleSpaced none) ∧
    (seen (useModule 10) none).map Token.spelling = (seen useModuleSpaced none).map Token.spelling ∧
    match parse (useModule 10) none, parse useModuleSpaced none with
    | .ok p, .ok q => Coinciding (seen (useModule 10) none) (seen useModuleSpaced none) p q
    | .error fault, .error fault' => fault = fault'
    | _, _ => False := by
  have hleft : Placed (seen (useModule 10) none) := ⟨by decide, by decide⟩
  have hright : Placed (seen useModuleSpaced none) := ⟨by decide, by decide⟩
  exact ⟨hleft, hright, by decide, parse_spacing hleft hright (by decide)⟩

/-- If the last token is empty, an end marker that is made begins where that token does, and an
error at the marker goes unreported behind one at the token. -/
theorem parse_depends_on_empty_token : ¬ ∀ (a b : List Token) (origin origin' : Option String),
    Placed a → Placed b → a.map Token.spelling = b.map Token.spelling →
    match parse a origin, parse b origin' with
    | .ok p, .ok q => Coinciding (seen a origin) (seen b origin') p q
    | .error fault, .error fault' => fault = fault'
    | _, _ => False := by
  intro hall
  have hmatch := hall (useModule 10) (useModule 4) none none ⟨by decide, by decide⟩
    ⟨by decide, by decide⟩ (by decide)
  have htwo : (parse (useModule 10) none).toOption.map (·.document.syntaxErrors.length) =
      some 2 := by
    decide +kernel
  have hone : (parse (useModule 4) none).toOption.map (·.document.syntaxErrors.length) =
      some 1 := by
    decide +kernel
  obtain ⟨p, hp, hp2⟩ := Parse.exists_of_map htwo
  obtain ⟨q, hq, hq1⟩ := Parse.exists_of_map hone
  rw [hp, hq] at hmatch
  have hlength := hmatch.errors.length_eq
  rw [hp2, hq1] at hlength
  exact absurd hlength (by decide)

end Scad
