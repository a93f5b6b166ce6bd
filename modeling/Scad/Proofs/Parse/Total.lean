import Scad.Proofs.Number.Literal
import Scad.Proofs.Parse.Reported

/-! Parsing a text gives a document, whatever the text is, and what is wrong with it is told by its
errors. The one thing that stops the work is a hexadecimal number beyond every finite one. -/
namespace Scad

open Parse (body source program initial)

/-! ### The number tokens of a text -/

/-- Every token was cut out of the text at one place. -/
theorem first_of_mem_scanFrom (origin : String) (last : Option TokenKind) (place : Position)
    (cs : List Char) :
    ∀ t ∈ (scanFrom origin last place cs).1.filterMap Scanned.token?,
      ∃ expectsFile c rest written n, Piece.first expectsFile c rest = (.token t.kind written, n) ∧
      t.text = String.ofList written := by
  fun_induction scanFrom origin last place cs with
  | case1 => exact fun t ht => absurd ht List.not_mem_nil
  | case2 last place c cs length next rest hfirst ih => exact ih
  | case3 last place c cs length next span rest kind text found stop hscan hfirst ih =>
      rw [hscan] at ih
      intro t ht
      rcases List.mem_cons.1 ht with rfl | ht
      · exact ⟨_, _, _, _, _, hfirst, rfl⟩
      · exact ih t ht
  | case4 last place c cs length next span rest message found stop hscan hfirst ih =>
      rw [hscan] at ih
      exact ih

theorem lexical_of_mem_scanFrom (origin : String) (last : Option TokenKind) (place : Position)
    (cs : List Char) :
    ∀ d ∈ (scanFrom origin last place cs).1.filterMap Scanned.fault?, ∃ c,
      d.fault = .lexical c := by
  fun_induction scanFrom origin last place cs with
  | case1 => exact fun d hd => absurd hd List.not_mem_nil
  | case2 last place c cs length next rest hfirst ih => exact ih
  | case3 last place c cs length next span rest kind text found stop hscan hfirst ih =>
      rw [hscan] at ih
      exact ih
  | case4 last place c cs length next span rest message found stop hscan hfirst ih =>
      rw [hscan] at ih
      intro d hd
      rcases List.mem_cons.1 hd with rfl | hd
      · exact ⟨_, rfl⟩
      · exact ih d hd

theorem Piece.number_of_lexeme {cs written : List Char} {n : Nat}
    (h : lexeme cs = (.token .number written, n)) :
    Lexeme.numberLength cs ≠ 0 ∧ written = cs.take (Lexeme.numberLength cs) := by
  simp only [lexeme] at h
  split at h
  · rename_i hnumber
    cases h
    exact ⟨hnumber.1, rfl⟩
  · split at h
    · split at h <;> cases h
    · split at h <;> cases h

/-- A number is cut out where a number begins. -/
theorem Piece.number_of_first {expectsFile : Bool} {c : Char} {cs written : List Char} {n : Nat}
    (h : first expectsFile c cs = (.token .number written, n)) :
    Lexeme.numberLength (c :: cs) ≠ 0 ∧ written =
      (c :: cs).take (Lexeme.numberLength (c :: cs)) := by
  unfold first at h
  split at h
  · cases h
  · split at h
    · split at h <;> cases h
    · split at h
      · cases h
      · split at h
        · split at h <;> cases h
        · split at h
          · simp only at h
            split at h <;> cases h
          · exact number_of_lexeme h

theorem read_of_mem_tokens {text name : String} {t : Token} (ht : t ∈ (tokenize text name).tokens)
    (hk : t.kind = .number) : (∃ x, Numeral.read t.text = .ok x) ∨ Numeral.Oversized t.text := by
  rcases List.mem_append.1 ht with ht | ht
  · obtain ⟨expectsFile, c, rest, written, n, hfirst, htext⟩ :=
      first_of_mem_scanFrom name none .start text.toList t ht
    rw [hk] at hfirst
    obtain ⟨hlength, rfl⟩ := Piece.number_of_first hfirst
    rw [htext]
    exact (Numeral.read_scanned hlength).imp id And.right
  · rw [List.mem_singleton.1 ht] at hk
    cases hk

/-! ### Texts -/

def Parse.textTokens (text name : String) (origin : Option String) : Setting where
  src := source (tokenize text name).tokens origin
  nodes := []
  spelling := .any
  token t := t.kind ≠ .eof ∧ t ∈ (tokenize text name).tokens
  breaks := ∃ t ∈ (tokenize text name).tokens, t.kind = .number ∧ Numeral.Oversized t.text
  stop := stop_source _ origin
  running h := h.1
  operator _ _ := trivial
  head _ _ := trivial
  numeral h hk := (read_of_mem_tokens h.2 hk).imp id fun hover => ⟨_, h.2, hk, hover⟩

/-- A document that was parsed to its end. What is wrong with the text is among the faults of its
scanner and the errors of the document. -/
structure Finished (stream : TokenStream) (origin : Option String) (p : Parse.Parsed) : Prop where
  done : ∃ s, program (source stream.tokens origin) (initial stream.tokens origin) =
    .done p.document.statements s ∧
    s.rest = []
  lexical : ∀ d ∈ stream.faults, ∃ c, d.fault = .lexical c
  syntactic : ∀ d ∈ p.document.syntaxErrors, d.fault = .syntactic

/-- Parsing a text ends with a document, or at a hexadecimal number beyond every finite one. -/
theorem parse_returns (text name : String) (origin : Option String) :
    match parse (tokenize text name).tokens origin with
    | .ok p => Finished (tokenize text name) origin p
    | .error _ =>
        ∃ t ∈ (tokenize text name).tokens, t.kind = .number ∧ Numeral.Oversized t.text := by
  have hp := Parse.parse_produces (Parse.textTokens text name origin) rfl fun t ht =>
    ⟨Parse.running_body ht, List.takeWhile_subset _ ht⟩
  cases h : parse (tokenize text name).tokens origin with
  | error fault =>
      rw [h] at hp
      exact hp
  | ok p =>
      rw [h] at hp
      obtain ⟨s, hs⟩ := hp
      obtain ⟨ts, mark, htokens, hended⟩ := ended_tokenize text name
      have hplaced : Placed (Parse.seen (tokenize text name).tokens origin) :=
        htokens ▸ hended.placed_seen origin
      refine ⟨⟨s, hs.run, hs.consumed⟩, lexical_of_mem_scanFrom name none .start text.toList, ?_⟩
      rw [hs.errors h]
      exact (hs.logged hplaced).syntactic

/-- A hexadecimal number of two hundred and fifty-six digits, beyond every finite number. -/
def greatHexadecimal : List Char :=
  "x = 0x".toList ++ List.replicate 256 'f' ++ [';']

theorem parse_stops_at_great :
    ¬ ∀ (text name : String) (origin : Option String), ∃ p,
      parse (tokenize text name).tokens origin = .ok p := by
  intro h
  obtain ⟨p, hp⟩ := h (String.ofList greatHexadecimal) "" none
  have hstops : (match parse (tokenize (String.ofList greatHexadecimal) "").tokens none with
      | .ok _ => false
      | .error fault => decide (fault = .tooLarge)) = true := by
    rw [tokens_ofList]
    decide +kernel
  rw [hp] at hstops
  cases hstops

end Scad
