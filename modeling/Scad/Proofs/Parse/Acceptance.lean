import Scad.Proofs.Parse.Completeness.Statement
import Scad.Proofs.Parse.Soundness.Statement

/-! Parsing reports nothing exactly for the programs of the grammar in which every `else` belongs to
the nearest `if`. If an `else` could also belong to an `if` further out, this would not be so. -/
namespace Scad

open Parse (maxNesting)
open Grammar (Program NearestElse)

/-- Tokens as a lexer gives them: an end marker among them, all of them in a text, and numbers that
can be read. -/
structure Readable (tokens : List Token) : Prop where
  ends : ∃ t ∈ tokens, t.kind = .eof
  placed : ∀ t ∈ tokens, 0 ≤ t.span.start.offset
  numeral : ∀ t ∈ tokens, t.kind = .number → ∃ x, Numeral.read t.text = .ok x

namespace Parse

def body (tokens : List Token) : List Token := tokens.takeWhile (·.kind ≠ .eof)

def source (tokens : List Token) (origin : Option String) : Source :=
  let stop := (tokens.find? (·.kind = .eof)).getD (endMarker tokens origin)
  ⟨origin.getD (tokens.head?.getD stop).span.origin, stop⟩

def initial (tokens : List Token) (origin : Option String) : State :=
  ⟨body tokens, 0, 0, tokens.head?.getD (source tokens origin).stop, #[], #[], -1⟩

theorem stop_of_readable {tokens : List Token} (h : Readable tokens) (origin : Option String) :
    (source tokens origin).stop ∈ tokens ∧ (source tokens origin).stop.kind = .eof := by
  obtain ⟨t, ht, hk⟩ := h.ends
  have hfound : (tokens.find? (·.kind = .eof)).isSome :=
    List.find?_isSome.2 ⟨t, ht, decide_eq_true hk⟩
  obtain ⟨stop, hstop⟩ := Option.isSome_iff_exists.1 hfound
  have he : (source tokens origin).stop = stop := by
    rw [source, hstop]
    rfl
  rw [he]
  have hkind := List.find?_some hstop
  exact ⟨List.mem_of_find?_eq_some hstop, of_decide_eq_true hkind⟩

theorem legible_of_readable {tokens : List Token} (h : Readable tokens) (origin : Option String) :
    Legible (source tokens origin) False (body tokens) := by
  obtain ⟨hmem, hk⟩ := stop_of_readable h origin
  have hsub : ∀ t ∈ body tokens, t ∈ tokens := fun t ht => (List.takeWhile_subset _) ht
  refine ⟨hk, h.placed _ hmem, fun t ht => h.placed t (hsub t ht), fun t ht => ?_,
    fun t ht hk => .inl (h.numeral t (hsub t ht) hk)⟩
  have hkind := List.all_eq_true.1 (List.all_takeWhile (l := tokens)) t ht
  exact of_decide_eq_true hkind

def Outcome.parsed (src : Source) : Outcome (List Node) → Except NumeralFault Parsed
  | .done statements s =>
    .ok ⟨⟨src.origin, statements, .ofMade s.made.toList, [], s.errors, []⟩, s.events.toList⟩
  | .abandoned s => .ok ⟨⟨src.origin, [], .ofMade s.made.toList, [], s.errors, []⟩, s.events.toList⟩
  | .broken fault => .error fault

theorem parse_eq (tokens : List Token) (origin : Option String) : parse tokens origin =
    (program (source tokens origin) (initial tokens origin)).parsed (source tokens origin) := rfl

/-- A document without errors has a program's tree. -/
theorem parse_sound {B : Prop} {tokens : List Token} {origin : Option String}
    (hl : Legible (source tokens origin) B (body tokens)) :
    match parse tokens origin with
    | .ok p => p.document.syntaxErrors = [] →
        Program NearestElse maxNesting (body tokens) p.document.statements
    | .error _ => B := by
  have hread := reads_program (initial tokens origin) hl fun _ => rfl
  rw [parse_eq]
  cases ho : program (source tokens origin) (initial tokens origin) with
  | done ss s =>
      rw [ho] at hread
      intro hc
      obtain ⟨-, hs, hend⟩ := hread.2 hc
      have hrest := (hl.suffix hread.1.suffix).running
      cases hr : s.rest with
      | nil =>
          rw [hr] at hs
          exact hs
      | cons t rest =>
          rw [hr] at hend hrest
          exact absurd hend (hrest t (List.mem_cons_self ..))
  | abandoned s =>
      rw [ho] at hread
      exact fun hc => absurd hc hread.2
  | broken fault =>
      rw [ho] at hread
      exact hread

/-- A program is parsed without an error, to the tree that the grammar gives it. -/
theorem parse_complete {tokens : List Token} {origin : Option String}
    (hstop : (source tokens origin).stop.kind = .eof) {ss : List Node}
    (hp : Program NearestElse maxNesting (body tokens) ss) :
    ∃ p, parse tokens origin = .ok p ∧ p.document.syntaxErrors = [] ∧
      p.document.statements.map Node.bare = ss.map Node.bare := by
  have hrun := runs_program hp hstop (initial tokens origin) rfl rfl
  rw [parse_eq]
  cases ho : program (source tokens origin) (initial tokens origin) with
  | done ss' s =>
      rw [ho] at hrun
      obtain ⟨-, -, he, hss⟩ := hrun
      exact ⟨_, rfl, he, hss⟩
  | abandoned s =>
      rw [ho] at hrun
      exact hrun.elim
  | broken fault =>
      rw [ho] at hrun
      exact hrun.elim

end Parse

open Parse (body)

theorem parse_accepts_iff (tokens : List Token) (origin : Option String) (h : Readable tokens) :
    ∃ p, parse tokens origin = .ok p ∧ (p.document.syntaxErrors = [] ↔
      ∃ ss, Program NearestElse maxNesting (body tokens) ss) := by
  have hsound := Parse.parse_sound (Parse.legible_of_readable h origin)
  cases hp : parse tokens origin with
  | error fault =>
      rw [hp] at hsound
      exact hsound.elim
  | ok p =>
      rw [hp] at hsound
      refine ⟨p, rfl, fun hc => ⟨_, hsound hc⟩, fun hss => ?_⟩
      obtain ⟨ss, hss⟩ := hss
      obtain ⟨p', hp', hc, -⟩ := Parse.parse_complete (Parse.stop_of_readable h origin).2 hss
      rw [hp] at hp'
      cases hp'
      exact hc

section Else

namespace Token

def plain (k : TokenKind) (text : String) : Token := ⟨k, text, .unknown⟩

def sign (s : Symbol) : Token := plain (.symbol s) s.text

def word (w : Keyword) : Token := plain (.keyword w) w.text

def one : Token := plain .number "1"

end Token

open Token (plain sign word one)

/-- `if (1) if (1); else cube(1);` -/
def twoIfs : List Token :=
  [word .ifThen, sign .leftParen, one, sign .rightParen,
    word .ifThen, sign .leftParen, one, sign .rightParen, sign .semicolon,
    word .otherwise, plain .identifier "cube", sign .leftParen, one,
    sign .rightParen, sign .semicolon]

/-- Tokens in a number of blocks, with the end marker behind them. -/
def inBlocks (n : Nat) (ts : List Token) : List Token :=
  List.replicate n (sign .leftBrace) ++
    (ts ++ (List.replicate n (sign .rightBrace) ++ [plain .eof ""]))

theorem readable_twoIfs {n : Nat} : Readable (inBlocks n twoIfs) := by
  have hmem : ∀ t ∈ inBlocks n twoIfs, t = sign .leftBrace ∨ t = sign .rightBrace ∨
      t ∈ plain .eof "" :: twoIfs := by
    intro t ht
    simp only [inBlocks, List.mem_append, List.mem_replicate, List.mem_singleton] at ht
    rcases ht with ⟨-, rfl⟩ | ht | ⟨-, rfl⟩ | rfl
    · exact .inl rfl
    · exact .inr (.inr (List.mem_cons_of_mem _ ht))
    · exact .inr (.inl rfl)
    · exact .inr (.inr (List.mem_cons_self ..))
  refine ⟨⟨plain .eof "", by simp [inBlocks], rfl⟩, fun t ht => ?_, fun t ht hk => ?_⟩
  · rcases hmem t ht with rfl | rfl | ht
    · decide
    · decide
    · exact (by decide : ∀ t ∈ plain .eof "" :: twoIfs, 0 ≤ t.span.start.offset) t ht
  · have htext : t.text = "1" := by
      rcases hmem t ht with rfl | rfl | ht
      · cases hk
      · cases hk
      · exact (by decide : ∀ t ∈ plain .eof "" :: twoIfs, t.kind = .number → t.text = "1") t ht hk
    rw [htext]
    exact ⟨_, rfl⟩

theorem parse_accepts_two_ifs : Readable (inBlocks 37 twoIfs) ∧
    ∃ p, parse (inBlocks 37 twoIfs) none = .ok p ∧ (p.document.syntaxErrors = [] ↔
      ∃ ss, Program NearestElse maxNesting (body (inBlocks 37 twoIfs)) ss) :=
  ⟨readable_twoIfs, parse_accepts_iff _ none readable_twoIfs⟩

open Grammar

theorem expression_one (inner : Level) (ts : List Token) :
    ∃ e, Expression inner (one :: ts) e ts := by
  have hone : Primary inner (one :: ts) ⟨Node.blank, .number (.real _)⟩ ts := .number rfl rfl
  exact ⟨_, .ternary (.plain (.single (.single (.single (.single (.single (.single
    (.plain (.plain (.plain hone))))))))))⟩

/-- With its `else` at the outer `if`, the statement needs two levels only. -/
theorem twoIfs_statement (rest : List Token) :
    ∃ x, Statement (level (fun _ => True) 2) (twoIfs ++ rest) x rest := by
  obtain ⟨c, hc⟩ := expression_one (level (fun _ => True) 1) (twoIfs.drop 3 ++ rest)
  obtain ⟨d, hd⟩ := expression_one (level (fun _ => True) 0) (twoIfs.drop 7 ++ rest)
  obtain ⟨e, he⟩ := expression_one (level (fun _ => True) 0) (twoIfs.drop 13 ++ rest)
  have hthen : Payload (level (fun _ => True) 1) (twoIfs.drop 4 ++ rest)
      ⟨Node.blank, .moduleIf d ⟨Node.blank, .empty⟩ none⟩ (twoIfs.drop 9 ++ rest) :=
    .ifThen rfl ⟨rfl, hd, rfl⟩ (.empty rfl) trivial
  have helse : Payload (level (fun _ => True) 1) (twoIfs.drop 10 ++ rest)
      ⟨Node.blank, .moduleCall ⟨Node.blank, .moduleHead ⟨Node.blank, .moduleName "cube"⟩
        [⟨Node.blank, .argument none e⟩]⟩ ⟨Node.blank, .empty⟩⟩ rest :=
    .call rfl ⟨rfl, .one (.unnamed he), rfl⟩ (.empty rfl)
  have hboth : Payload (level (fun _ => True) 2) (twoIfs ++ rest) ⟨Node.blank, .moduleIf c
      ⟨Node.blank, .instantiation (.ofList []) _⟩
      (some ⟨Node.blank, .instantiation (.ofList []) _⟩)⟩ rest :=
    .ifElse rfl ⟨rfl, hc, rfl⟩ (.instantiation ⟨.nil, hthen⟩) ⟨rfl, .instantiation ⟨.nil, helse⟩⟩
  exact ⟨⟨Node.blank, .instantiation (.ofList []) _⟩, .instantiation ⟨.nil, hboth⟩⟩

/-- Every block around a statement opens one level. -/
theorem statement_inBlocks {ifEnd : List Token → Prop} {n : Nat} {ts : List Token} (k : Nat)
    (h : ∀ rest, ∃ x, Statement (level ifEnd n) (ts ++ rest) x rest) (rest : List Token) :
    ∃ x, Statement (level ifEnd (n + k)) (List.replicate k (sign .leftBrace) ++
      (ts ++ (List.replicate k (sign .rightBrace) ++ rest))) x rest := by
  induction k generalizing rest with
  | zero => exact h rest
  | succ k ih =>
      obtain ⟨x, hx⟩ := ih (sign .rightBrace :: rest)
      have hr : List.replicate (k + 1) (sign .rightBrace) ++ rest =
          List.replicate k (sign .rightBrace) ++ sign .rightBrace :: rest := by
        rw [List.replicate_succ', List.append_assoc]
        rfl
      rw [hr]
      exact ⟨⟨Node.blank, .block [x]⟩, .block ⟨⟨rfl, .cons hx .nil, rfl⟩⟩⟩

theorem body_inBlocks {n : Nat} : body (inBlocks n twoIfs) =
    List.replicate n (sign .leftBrace) ++
      (twoIfs ++ (List.replicate n (sign .rightBrace) ++ [])) := by
  have hsign : ∀ (s : Symbol), ∀ t ∈ List.replicate n (sign s), decide (t.kind ≠ .eof) = true := by
    intro s t ht
    rw [List.eq_of_mem_replicate ht]
    rfl
  have htwo : ∀ t ∈ twoIfs, decide (t.kind ≠ .eof) = true := by decide
  rw [body, inBlocks, List.takeWhile_append_of_pos (hsign _), List.takeWhile_append_of_pos htwo,
    List.takeWhile_append_of_pos (hsign _)]
  rfl

/-- If any `if` could take an `else`, there would be programs that are refused. -/
theorem parse_refuses_free_else : ¬ ∀ (tokens : List Token) (origin : Option String),
    Readable tokens → ∃ p, parse tokens origin = .ok p ∧ (p.document.syntaxErrors = [] ↔
      ∃ ss, Program (fun _ => True) maxNesting (body tokens) ss) := by
  intro hall
  obtain ⟨p, hp, hiff⟩ := hall (inBlocks 38 twoIfs) none readable_twoIfs
  obtain ⟨x, hx⟩ := statement_inBlocks 38 twoIfs_statement []
  have hnone : p.document.syntaxErrors = [] := hiff.2 ⟨[x], body_inBlocks ▸ .cons hx .nil⟩
  have hone : (parse (inBlocks 38 twoIfs) none).toOption.map (·.document.syntaxErrors.length) =
      some 1 := by
    decide +kernel
  rw [hp] at hone
  simp [Except.toOption, hnone] at hone

end Else

end Scad
