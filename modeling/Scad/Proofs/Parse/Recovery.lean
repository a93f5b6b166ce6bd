import Mathlib.Logic.ExistsUnique
import Scad.Proofs.Parse.Effect.Program

/-! Recovery respects the structure of braces: an abandoned statement takes the whole of each block
in it along, and nothing of a block around it. -/
namespace Scad

open Parse (Event body)

namespace Parse

/-- Nothing is known of the tokens, and a number may fail to be read. -/
def anyTokens (tokens : List Token) (origin : Option String) : Setting where
  src := source tokens origin
  nodes := []
  spelling := .any
  token t := t.kind ≠ .eof
  breaks := True
  stop := stop_source tokens origin
  running h := h
  operator _ _ := trivial
  head _ _ := trivial
  numeral _ _ := .inr trivial

theorem produced_of_ok {tokens : List Token} {origin : Option String} {p : Parsed}
    (h : parse tokens origin = .ok p) : ∃ s, Produced .any tokens origin p s := by
  have hp := parse_produces (anyTokens tokens origin) rfl fun t ht => running_body ht
  rw [h] at hp
  exact hp

/-- What happened to the braces of a text as a whole. -/
theorem Produced.settled {spelling : Spelling} {tokens : List Token} {origin : Option String}
    {p : Parsed} {s : State} (h : Produced spelling tokens origin p s) :
    Settled 0 (body tokens).length (matching 0 [] (body tokens)).pairs
      (matching 0 [] (body tokens)).unmatched (p.events.filter (·.error?.isNone)) := by
  obtain ⟨ts, es, hts, hp, hn, hset, -⟩ := h.ranges.braces
  have hbody : body tokens = ts := by
    rw [h.consumed, List.append_nil] at hts
    exact hts
  have hes : s.notes = es := hn
  rw [h.events, hbody, ← Nat.zero_add ts.length]
  rw [← hes, hp] at hset
  exact hset

end Parse

/-- The closing braces that are dropped are those without a partner. Both braces of a pair are
either those of one block that was read, or were skipped together. -/
theorem parse_respects_braces {tokens : List Token} {origin : Option String} {p : Parse.Parsed}
    (h : parse tokens origin = .ok p) :
    p.events.filterMap Event.discarded? = (matching 0 [] (body tokens)).unmatched ∧
    (∀ pair ∈ (matching 0 [] (body tokens)).pairs, ∃! e, e ∈ p.events ∧ e.Settles pair) ∧
    (∀ opening closing, .block opening closing ∈ p.events →
      (opening, closing) ∈ (matching 0 [] (body tokens)).pairs) ∧
    ∀ start stop first behind, .recovered start stop first behind ∈ p.events →
      ∀ pair ∈ (matching 0 [] (body tokens)).pairs,
        (first ≤ pair.1 ∧ pair.1 < behind ↔ first ≤ pair.2 ∧ pair.2 < behind) := by
  obtain ⟨s, hs⟩ := Parse.produced_of_ok h
  have hset := hs.settled
  have hnote : ∀ {e : Event}, e ∈ p.events → e.error? = none →
      e ∈ p.events.filter (·.error?.isNone) := by
    intro e he hn
    exact List.mem_filter.2 ⟨he, by rw [hn]; rfl⟩
  have hsettles : ∀ {e : Event} {pair : Nat × Nat}, e.Settles pair → e.error? = none := by
    intro e pair he
    cases e with
    | error d => exact he.elim
    | recovered | block | discarded => rfl
  refine ⟨?_, fun pair hp => ?_, fun o c hb => hset.block o c (hnote hb rfl), ?_⟩
  · rw [← hset.dropped, List.filterMap_filter]
    congr 1
    funext e
    cases e <;> rfl
  · obtain ⟨e, he, hes⟩ := hset.pair pair hp
    refine ⟨e, ⟨(List.mem_filter.1 he).1, hes⟩, fun f ⟨hf, hfs⟩ => ?_⟩
    exact hset.once f (hnote hf (hsettles hfs)) e he pair.1 hfs.covers.1 hes.covers.1
  · intro start stop first behind hr pair hp
    obtain ⟨e, he, hes⟩ := hset.pair pair hp
    -- An event that deals with one brace of the pair is the one that settles both.
    have hsame : ∀ x, e.Covers x → first ≤ x ∧ x < behind →
        (Event.recovered start stop first behind).Settles pair := by
      intro x hx hin
      have heq := hset.once _ (hnote hr rfl) e he x hin hx
      exact heq ▸ hes
    exact ⟨fun hin => (hsame _ hes.covers.1 hin).2, fun hin => (hsame _ hes.covers.2 hin).1⟩

/-- `} { ) { ; } } { ; }`: a stray brace, a block that is skipped within one that is read, and a
block. -/
def strayBraces : List Token :=
  [.sign .rightBrace, .sign .leftBrace, .sign .rightParen, .sign .leftBrace, .sign .semicolon,
    .sign .rightBrace, .sign .rightBrace, .sign .leftBrace, .sign .semicolon, .sign .rightBrace]

theorem parse_respects_stray_braces : ∃ p, parse strayBraces none = .ok p ∧
    p.events.filterMap Event.discarded? = [0] ∧
    ∀ pair ∈ [(3, 5), (1, 6), (7, 9)], ∃! e, e ∈ p.events ∧ e.Settles pair := by
  have hm : matching 0 [] (body strayBraces) = ⟨[(3, 5), (1, 6), (7, 9)], [0], []⟩ := rfl
  have hok : (parse strayBraces none).isOk := by decide +kernel
  obtain ⟨p, h⟩ := Parse.exists_of_isOk hok
  have hp := parse_respects_braces h
  rw [hm] at hp
  exact ⟨p, h, hp.1, hp.2.1⟩

end Scad
