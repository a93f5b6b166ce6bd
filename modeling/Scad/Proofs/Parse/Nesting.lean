import Scad.Proofs.Parse.Concatenation
import Scad.Proofs.Parse.Extent
import Scad.Proofs.Tree.WalkOrder

/-! The ranges of the nodes of a text without errors nest, and a walk meets the nodes in the order
of the text, the end and the step of a range apart. -/
namespace Scad

open Parse (source body maxNesting Parsed MadeOf)

/-- The tokens of a text, without the end marker, stand one behind the other. -/
theorem inOrder_tokenize {text origin : String} {ts : List Token} {mark : Token}
    (h : (tokenize text origin).tokens = ts ++ [mark]) : InOrder ts := by
  have htiled := tiled_scanFrom origin none .start text.toList
  obtain ⟨rfl, -⟩ := List.append_inj' (h.symm.trans rfl :
    ts ++ [mark] = (scanFrom origin none .start text.toList).1.filterMap Scanned.token? ++ [_]) rfl
  refine ⟨fun t ht => ?_, htiled.disjoint.filterMap _ fun x y hxy t ht u hu => ?_⟩
  · obtain ⟨x, hx, hxt⟩ := List.mem_filterMap.1 ht
    rw [← Scanned.span_of_token? hxt]
    exact (htiled.bounds x hx).2
  · rw [← Scanned.span_of_token? ht, ← Scanned.span_of_token? hu]
    exact hxy

/-- The statements of a text without errors with the tokens they are made of. -/
theorem Ended.madeOf {ts : List Token} {mark : Token} {name : Option String} {p : Parsed}
    (h : Ended ts mark) (hp : parse (ts ++ [mark]) name = .ok p)
    (hc : p.document.syntaxErrors = []) :
    Spread (MadeOf (Grammar.level Grammar.NearestElse maxNesting)) p.document.statements ts := by
  have hmade := Parse.made_of_parse (h.legible name) hp hc
  rwa [h.body] at hmade

/-- How the nodes of a document lie in a text with these tokens. -/
structure Document.Nested (d : Document) (tokens : List Token) : Prop where
  wide : ∀ n ∈ d.walk, n.span.start.offset < n.span.stop.offset
  /-- Nodes begin and end where tokens do. -/
  fitted : ∀ n ∈ d.walk, ∃ first ∈ tokens, ∃ last ∈ tokens, first.kind ≠ .eof ∧ last.kind ≠ .eof ∧
    n.span.start = first.span.start ∧ n.span.stop = last.span.stop
  inside : ∀ n ∈ d.walk, ∀ c ∈ n.children,
    n.span.start.offset ≤ c.span.start.offset ∧ c.span.stop.offset ≤ n.span.stop.offset
  /-- Two children do not meet. -/
  apart : ∀ n ∈ d.walk, n.children.Pairwise fun a b => a.Before b ∨ b.Before a
  rising : d.statements.Pairwise Node.Before

/-- Every node of a tree on tokens spans some of them. -/
theorem Document.spans_of_mem_walk {d : Document} {ts : List Token}
    (h : Spread Node.Spans d.statements ts) {n : Node} (hn : n ∈ d.walk) :
    ∃ us, us <:+: ts ∧ n.Spans us := by
  obtain ⟨m, hm, hn⟩ := Node.mem_walkFrom.1 hn
  obtain ⟨us, hus, hspans⟩ := h.run hm
  obtain ⟨vs, hvs, hn⟩ := hspans.descendant hn
  exact ⟨vs, hvs.trans hus, hn⟩

/-- Where statements stand on the tokens of a text, ranges nest. -/
theorem Document.nested_of_spread {d : Document} {ts : List Token} {mark : Token}
    (h : Spread Node.Spans d.statements ts) (hts : InOrder ts)
    (hrunning : ∀ t ∈ ts, t.kind ≠ .eof) :
    d.Nested (ts ++ [mark]) := by
  refine ⟨fun n hn => ?_, fun n hn => ?_, fun n hn c hc => ?_, fun n hn => ?_,
    h.before_pairwise hts⟩
  · obtain ⟨us, hus, hspans⟩ := spans_of_mem_walk h hn
    exact hspans.wide (hts.sublist hus.sublist)
  · obtain ⟨us, hus, hspans⟩ := spans_of_mem_walk h hn
    obtain ⟨first, last, hfirst, hlast, hstart, hstop⟩ := hspans.range (hts.sublist hus.sublist)
    have hmem := hus.mem (List.mem_of_head? hfirst)
    have hmem' := hus.mem (List.mem_of_getLast? hlast)
    exact ⟨first, List.mem_append_left _ hmem, last, List.mem_append_left _ hmem', hrunning _ hmem,
      hrunning _ hmem', hstart, hstop⟩
  · obtain ⟨us, hus, hspans⟩ := spans_of_mem_walk h hn
    obtain ⟨vs, hvs, hspans'⟩ := hspans.child hc
    exact hspans.inside (hts.sublist hus.sublist) hspans' hvs
  · obtain ⟨us, hus, hspans⟩ := spans_of_mem_walk h hn
    exact hspans.disjoint (hts.sublist hus.sublist)

/-- In a text without syntax errors, every node lies in its parent, apart from the other children,
and on whole tokens, and the statements lie one behind the other. -/
theorem parse_nests (text origin : String) (name : Option String) {p : Parsed}
    (h : parse (tokenize text origin).tokens name = .ok p) (hc : p.document.syntaxErrors = []) :
    p.document.Nested (tokenize text origin).tokens := by
  obtain ⟨ts, mark, hts, hended⟩ := ended_tokenize text origin
  rw [hts] at h ⊢
  have hspans := (hended.madeOf h hc).imp fun _ _ hn => hn.1
  exact Document.nested_of_spread hspans (inOrder_tokenize hts) hended.running

/-- A text in which nodes of most kinds stand in each other. -/
def nestedText : String :=
  "module m(a, b = [0 : 2 : a]) difference() \x7b cube(b[0].x); if (a < 1) sphere(r = -a ^ 2); else; \x7d m(1);"

theorem clean_nestedText :
    (parse (tokenize nestedText "a").tokens none).toOption.map (·.document.syntaxErrors) =
      some [] := by
  rw [nestedText, tokens_ofList]
  decide +kernel

theorem parse_nests_module : ∃ p, parse (tokenize nestedText "a").tokens none = .ok p ∧
    p.document.syntaxErrors = [] ∧ p.document.Nested (tokenize nestedText "a").tokens := by
  obtain ⟨p, hp, hc⟩ := Parse.exists_of_map clean_nestedText
  exact ⟨p, hp, hc, parse_nests nestedText "a" none hp hc⟩

/-! ### The order of a walk -/

/-- In a text without syntax errors, a walk meets two nodes against the order of the text exactly if
one belongs to the end and the other to the step of a range. So it goes forward all the time if no
range in the text has a step, and then only. -/
theorem parse_walks (text origin : String) (name : Option String) {p : Parsed}
    (h : parse (tokenize text origin).tokens name = .ok p) (hc : p.document.syntaxErrors = []) :
    p.document.walk.Pairwise (fun m m' => m'.span.start.offset < m.span.start.offset ↔
        ∃ r ∈ p.document.walk, r.StepsBack m m') ∧
      (p.document.walk.Pairwise Node.StartsBy ↔ ∀ r ∈ p.document.walk, ¬ r.Stepped) := by
  obtain ⟨ts, mark, hts, hended⟩ := ended_tokenize text origin
  rw [hts] at h
  have hspread := (hended.madeOf h hc).imp fun _ _ hn => hn.1
  have horder := inOrder_tokenize hts
  have hback : ∀ r ∈ p.document.walk, ∀ m m', r.StepsBack m m' →
      m'.span.start.offset < m.span.start.offset := by
    intro r hr m m' hrm
    obtain ⟨us, hus, hspans⟩ := Document.spans_of_mem_walk hspread hr
    exact hspans.lt_of_stepsBack (horder.sublist hus.sublist) hrm
  have hwalk := Node.walkFrom_order hspread horder
  refine ⟨?_, fun hforward r hr hstepped => ?_, fun hnone => ?_⟩
  · refine hwalk.imp fun {m m'} hmm => ?_
    constructor
    · exact fun hlt => hmm.resolve_left (Int.not_le.2 hlt)
    · rintro ⟨r, hr, hrm⟩
      exact hback r hr m m' hrm
  · obtain ⟨a, b, s, hf⟩ := hstepped
    have hends := hforward.sublist ((Node.sublist_of_stepped hf).trans (Node.sublist_walkFrom hr))
    have hlt := hback r hr b s ⟨a, b, s, hf, Node.mem_preorder_self b, Node.mem_preorder_self s⟩
    exact Int.not_le.2 hlt ((List.pairwise_cons.1 hends).1 s (List.mem_singleton_self _))
  · refine hwalk.imp fun {m m'} hmm => hmm.resolve_right ?_
    rintro ⟨r, hr, a, b, s, hf, -⟩
    exact hnone r hr ⟨a, b, s, hf⟩

theorem parse_walks_stepped : ∃ p, parse (tokenize nestedText "a").tokens none = .ok p ∧
    p.document.syntaxErrors = [] ∧
    p.document.walk.Pairwise (fun m m' => m'.span.start.offset < m.span.start.offset ↔
        ∃ r ∈ p.document.walk, r.StepsBack m m') ∧
      (p.document.walk.Pairwise Node.StartsBy ↔ ∀ r ∈ p.document.walk, ¬ r.Stepped) := by
  obtain ⟨p, hp, hc⟩ := Parse.exists_of_map clean_nestedText
  exact ⟨p, hp, hc, parse_walks nestedText "a" none hp hc⟩

/-- The step of a range is met behind its end, although it is written before it. -/
theorem parse_walks_back : ¬ ∀ (text origin : String) (name : Option String) (p : Parsed),
    parse (tokenize text origin).tokens name = .ok p → p.document.syntaxErrors = [] →
      p.document.walk.Pairwise Node.StartsBy := by
  intro hall
  have hwalk : (parse (tokenize "x = [0:1:10];" "a").tokens none).toOption.map (fun p =>
      (p.document.syntaxErrors, p.document.walk.map (·.span.start.offset))) =
        some ([], [0, 0, 4, 5, 9, 7]) := by
    decide +kernel
  obtain ⟨p, hp, heq⟩ := Parse.exists_of_map hwalk
  obtain ⟨hc, hoffsets⟩ := Prod.mk.inj heq
  have hsorted : (p.document.walk.map (·.span.start.offset)).Pairwise (· ≤ ·) :=
    (hall _ _ _ p hp hc).map _ fun _ _ => id
  rw [hoffsets] at hsorted
  revert hsorted
  decide

end Scad
