import Scad.Analysis
import Scad.Proofs.Parse.Spacing
import Scad.Proofs.Resolve.Gaps
import Scad.Proofs.Resolve.Scratch
import Scad.Proofs.Token.Position

/-! Places stay exact on their way from the tokens of a text to nodes and findings. Parsing and
resolving pass on no place that is not a token's, so every finding is shown with its line. -/
namespace Scad

open List (Forall₂)
open Parse (source body initial program Parsed Event State)

namespace Parse

/-- A parser beside itself, over tokens whose places are exact. -/
def Link.exact (cs : List Char) : Link where
  starts p q := p = q ∧ p.Exact cs
  stops p q := p = q ∧ p.Exact cs
  together := by
    rintro _ _ _ _ ⟨rfl, -⟩ ⟨rfl, -⟩
    rfl
  inside := by
    rintro _ _ ⟨rfl, -⟩
    rfl
  clip := by
    rintro _ _ _ _ ⟨rfl, hp⟩ ⟨rfl, hq⟩
    split
    · exact ⟨rfl, hp⟩
    · exact ⟨rfl, hq⟩

theorem Link.Spans.exact {cs : List Char} {a b : Span} (h : (Link.exact cs).Spans a b) :
    a.Exact cs :=
  ⟨h.start.2, h.stop.2⟩

theorem Link.tokens_exact {cs : List Char} {t : Token} (h : t.span.Exact cs) :
    (Link.exact cs).Tokens t t :=
  .mk ⟨⟨rfl, h.start⟩, ⟨rfl, h.stop⟩⟩

variable {cs : List Char} {tokens : List Token} {origin : Option String} {p : Parsed}

/-- What is made of tokens whose places are exact. -/
theorem exact_of_ok (ht : ∀ t ∈ body tokens, t.span.Exact cs)
    (hs : (source tokens origin).stop.span.Exact cs) (h : parse tokens origin = .ok p) :
    (∀ n ∈ p.document.arena.nodes, n.span.Exact cs) ∧ ∀ e ∈ p.document.syntaxErrors,
      e.span.Exact cs := by
  obtain ⟨s, hp⟩ := produced_of_ok h
  have hstop := Link.tokens_exact hs
  have hbody : Forall₂ (Link.exact cs).Tokens (body tokens) (body tokens) :=
    List.forall₂_same.2 fun t hmem => Link.tokens_exact (ht t hmem)
  have hrun := lockstep_program (Link.exact cs) _ _ _ _ hstop (Link.states_initial hbody hstop)
  rw [hp.run] at hrun
  rw [hp.nodes, hp.errors h]
  exact ⟨fun n hn => (List.forall₂_same.1 hrun.2.made n hn).span.exact,
    fun e he => (List.forall₂_same.1 (Link.findings hrun.2.events) e he).span.exact⟩

end Parse

/-- The text of a document, all of whose places are exact. -/
structure Document.Exact (cs : List Char) (d : Document) : Prop where
  walk : ∀ n ∈ d.walk, n.span.Exact cs
  arena : ∀ n ∈ d.arena.nodes, n.span.Exact cs
  lexErrors : ∀ e ∈ d.lexErrors, e.span.Exact cs
  syntaxErrors : ∀ e ∈ d.syntaxErrors, e.span.Exact cs

theorem Node.span_unbound (n : Node) : n.unbound.span = n.span := by
  obtain ⟨i, f⟩ := n
  rw [unbound_mk]
  rfl

/-- An end marker that the tokens have is the one that is parsed up to. -/
theorem Parse.stop_mem {tokens : List Token} {origin : Option String} {t : Token} (ht : t ∈ tokens)
    (hk : t.kind = .eof) : (source tokens origin).stop ∈ tokens := by
  have hsome : (tokens.find? (·.kind = .eof)).isSome :=
    List.find?_isSome.2 ⟨t, ht, decide_eq_true hk⟩
  obtain ⟨mark, hmark⟩ := Option.isSome_iff_exists.1 hsome
  rw [source, hmark]
  exact List.mem_of_find?_eq_some hmark

/-- A text that is read becomes a document of its tokens, with the faults beside. -/
theorem of_parseText {text origin : String} {stream : TokenStream} {p : Parsed}
    (h : parseText text origin = .ok (stream, p)) : stream = tokenize text origin ∧
      ∃ q, parse (tokenize text origin).tokens (some origin) = .ok q ∧
        p.document = { q.document with lexErrors := (tokenize text origin).faults } := by
  unfold parseText at h
  cases hq : parse (tokenize text origin).tokens (some origin) with
  | error fault =>
      simp only [hq] at h
      cases h
  | ok q =>
      simp only [hq] at h
      cases h
      exact ⟨rfl, q, rfl, rfl⟩

theorem exact_of_parseText {text origin : String} {stream : TokenStream} {p : Parsed}
    (h : parseText text origin = .ok (stream, p)) : p.document.Exact text.toList := by
  obtain ⟨-, q, hq, hp⟩ := of_parseText h
  have htokens := exact_tokens text origin
  obtain ⟨ts, mark, heq, hmark, -⟩ := tokenize_isTextOf text origin
  have hmem : mark ∈ (tokenize text origin).tokens :=
    heq ▸ List.mem_append_right _ (List.mem_singleton_self _)
  obtain ⟨hnodes, herrors⟩ := Parse.exact_of_ok
    (fun t ht => htokens t ((List.takeWhile_prefix _).subset ht))
      (htokens _ (Parse.stop_mem hmem hmark)) hq
  obtain ⟨s, hs⟩ := Parse.produced_of_ok hq
  rw [hp]
  exact ⟨fun n hn => hnodes n (hs.nodes ▸ hs.made hn), hnodes, exact_faults text origin, herrors⟩

/-- A refreshed arena holds nodes that it held before, and given ones. -/
theorem Arena.mem_refresh {a : Arena} {ns : List Node} {n : Node} (hn : n ∈ (a.refresh ns).nodes) :
    n ∈ a.nodes ∨ n ∈ ns := by
  rw [nodes, refresh, List.map_map] at hn
  obtain ⟨⟨id, m⟩, hm, rfl⟩ := List.mem_map.1 hn
  simp only [Function.comp]
  cases hf : ns.reverse.find? (·.id = id) with
  | none => exact .inl (List.mem_map_of_mem (f := Prod.snd) hm)
  | some k => exact .inr (List.mem_reverse.1 (List.mem_of_find?_eq_some hf))

/-- Resolving leaves the places of nodes and findings as they are. -/
theorem Document.Exact.resolve {cs : List Char} {d : Document} (h : d.Exact cs) (hd : FromText d)
    (deps : Resolve.Dependencies) (builtins : Option Builtins) :
    (resolve d deps builtins).document.Exact cs := by
  have hstatements := congrArg Document.statements (hd.unbound_resolve deps builtins)
  have hwalk : ∀ n ∈ (Scad.resolve d deps builtins).document.walk, n.span.Exact cs := by
    intro n hn
    obtain ⟨m, hm, hmn⟩ := Node.mem_walkFrom_of_unbound hstatements hn
    rw [← n.span_unbound, ← hmn, m.span_unbound]
    exact h.walk m hm
  refine ⟨hwalk, fun n hn => ?_, h.lexErrors, h.syntaxErrors⟩
  rcases Arena.mem_refresh hn with hn | hn
  · exact h.arena n hn
  · exact hwalk n hn

/-- A name that is not bound is reported where it stands. -/
theorem Document.Exact.bindingErrors {cs : List Char} {d : Document} {deps : Resolve.Dependencies}
    {builtins : Option Builtins} (h : (Scad.resolve d deps builtins).document.Exact cs) :
    ∀ e ∈ (Scad.resolve d deps builtins).document.bindingErrors, e.span.Exact cs := by
  intro e he
  obtain ⟨n, hn, hspan⟩ := Resolve.exists_reference_of_bindingErrors d deps he
  exact hspan ▸ h.walk n (List.mem_filter.1 hn).1

/-- Every place that comes out of a text counts the lines and the characters before it, and every
finding is shown with its line and a caret below its place. -/
theorem analysis_places (text origin : String) :
    (∀ t ∈ (tokenize text origin).tokens, t.span.Exact text.toList) ∧
    ∀ stream p, parseText text origin = .ok (stream, p) →
      ∀ (deps : Resolve.Dependencies) (builtins : Option Builtins) (d : Document),
        d = (resolve p.document deps builtins).document →
        (∀ t ∈ stream.tokens, t.span.Exact text.toList) ∧
        (∀ n ∈ d.walk ++ d.arena.nodes, n.span.Exact text.toList) ∧
        ∀ e ∈ d.lexErrors ++ d.syntaxErrors ++ d.bindingErrors, e.span.Exact text.toList ∧
        e.Pointed text := by
  refine ⟨exact_tokens text origin, fun stream p h deps builtins d hd => ?_⟩
  subst hd
  obtain ⟨rfl, q, hq, hp⟩ := of_parseText h
  have hplain := exact_of_parseText h
  have htext : FromText p.document := hp ▸ .noted (.parsed hq) _
  have hexact := hplain.resolve htext deps builtins
  have hfindings : ∀ e ∈ (resolve p.document deps builtins).document.lexErrors ++
      (resolve p.document deps builtins).document.syntaxErrors ++
      (resolve p.document deps builtins).document.bindingErrors, e.span.Exact text.toList :=
    List.forall_mem_append.2 ⟨List.forall_mem_append.2 ⟨hexact.lexErrors, hexact.syntaxErrors⟩,
      hexact.bindingErrors⟩
  exact ⟨exact_tokens text origin, List.forall_mem_append.2 ⟨hexact.walk, hexact.arena⟩,
    fun e he => ⟨hfindings e he, Diagnostic.pointed_of_exact (hfindings e he).start⟩⟩

/-- A text with a stray character, a name that nothing declares and a call that is not closed. -/
def tabbedText : String := "x = 1;\n\ty = x + z @;\n\tcube("

def Document.findingPlaces (d : Document) : List Position :=
  (d.lexErrors ++ d.syntaxErrors ++ d.bindingErrors).map (·.span.start)

theorem analysis_places_tabbed : ∃ stream p d, parseText tabbedText "main" = .ok (stream, p) ∧
    d = (resolve p.document [] none).document ∧
      d.findingPlaces = [⟨18, 2, 12⟩, ⟨27, 3, 7⟩, ⟨16, 2, 10⟩] ∧
    (∀ t ∈ stream.tokens, t.span.Exact tabbedText.toList) ∧
    (∀ n ∈ d.walk ++ d.arena.nodes, n.span.Exact tabbedText.toList) ∧
    ∀ e ∈ d.lexErrors ++ d.syntaxErrors ++ d.bindingErrors,
      e.span.Exact tabbedText.toList ∧ e.Pointed tabbedText := by
  have hplaces : (parseText tabbedText "main").toOption.map
      (fun r => (resolve r.2.document [] none).document.findingPlaces) =
        some [⟨18, 2, 12⟩, ⟨27, 3, 7⟩, ⟨16, 2, 10⟩] := by
    decide +kernel
  obtain ⟨⟨stream, p⟩, hp, hd⟩ := Parse.exists_of_map hplaces
  exact ⟨stream, p, _, hp, rfl, hd, (analysis_places tabbedText "main").2 stream p hp [] none _ rfl⟩

end Scad
