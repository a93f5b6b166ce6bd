import Scad.Proofs.Parse.Reading
import Scad.Proofs.Tree.Order

/-! What a production builds, piece by piece. Each production is followed once, from the pieces that
were read when it began to those that it leaves. What the pieces mean is left open: an
interpretation says it, with the laws that the steps of productions have to keep, and whatever the
interpretation, productions build the same pieces. -/
namespace Scad

namespace Diagnostic

/-- What is said of a vector that has generators and other elements. -/
def mixture : String := "list comprehension elements cannot be mixed with plain vector elements"

end Diagnostic

namespace Parse

open Diagnostic (mixture)

variable {α β : Type}

def State.nextNode (src : Source) (s : State) (start : Token) (form : Form Node) : Node :=
  ⟨⟨s.made.size, spanFrom src s start, none⟩, form⟩

def State.withNode (s : State) (n : Node) : State := { s with made := s.made.push n }

/-- A closing brace that no block was open for is dropped. -/
def dropBrace : Parser Unit := do
  note (.discarded (← place))
  let brace ← advance
  report "unmatched '\x7d'" brace.span

def State.dropping (s : State) : State := { s with events := s.events.push (.discarded s.position) }

theorem dropBrace_eq {src : Source} {s m : State} {t : Token}
    (h : advance src s.dropping = .done t m) :
    dropBrace src s = report "unmatched '\x7d'" t.span src m := by
  show Parser.bind advance (fun brace => report _ brace.span) src s.dropping = _
  rw [Parser.bind, h]

theorem dropBrace_cons {src : Source} {s : State} {t : Token} {rest : List Token}
    (hr : s.rest = t :: rest) :
    dropBrace src s = report "unmatched '\x7d'" t.span src (s.dropping.behind t rest) := by
  refine dropBrace_eq ?_
  unfold advance
  rw [show s.dropping.rest = t :: rest from hr]
  rfl

/-- Something that was read. Trees come with a bound on their height. -/
inductive Piece where
  /-- Nothing yet, but this token is next. -/
  | ahead (t : Token)
  /-- At least one token that no tree is made of, and nothing was reported. -/
  | passed
  /-- An error was reported at the next token. -/
  | reported
  /-- At least one token that is not part of a statement, and it was reported. -/
  | skipped
  /-- From this token on, trees one behind the other. -/
  | opened (t : Token) (ns : List Node) (height : Nat)
  /-- One tree and nothing else. -/
  | tree (n : Node) (height : Nat)
  /-- An element of a vector. It may stand in parentheses that are not part of it. -/
  | element (n : Node) (height : Nat)
  /-- Trees one behind the other, among other tokens. -/
  | trees (ns : List Node) (height : Nat)

namespace Piece

@[simp]
def nodes : Piece → List Node
  | .ahead _ | .passed | .reported | .skipped => []
  | .tree n _ | .element n _ => [n]
  | .opened _ ns _ | .trees ns _ => ns

@[simp]
def height : Piece → Nat
  | .ahead _ | .passed | .reported | .skipped => 0
  | .opened _ _ k | .tree _ k | .element _ k | .trees _ k => k

def raise (k : Nat) : Piece → Piece
  | .opened t ns _ => .opened t ns k
  | .tree n _ => .tree n k
  | .element n _ => .element n k
  | .trees ns _ => .trees ns k
  | p => p

theorem nodes_raise (k : Nat) (p : Piece) : (p.raise k).nodes = p.nodes := by cases p <;> rfl

theorem raise_eq_reported {k : Nat} {p : Piece} : p.raise k = .reported ↔ p = .reported := by
  cases p <;> simp [raise]

end Piece

def nodesOf (c : List Piece) : List Node := c.flatMap Piece.nodes

def Below (k : Nat) (c : List Piece) : Prop := ∀ p ∈ c, p.height ≤ k

section

variable {k : Nat} {p : Piece} {c d : List Piece} {xs : List α} {seg : α → List Piece}

@[simp]
theorem nodesOf_nil : nodesOf [] = [] := rfl

@[simp]
theorem nodesOf_cons : nodesOf (p :: c) = p.nodes ++ nodesOf c := rfl

@[simp]
theorem nodesOf_append : nodesOf (c ++ d) = nodesOf c ++ nodesOf d := List.flatMap_append

@[simp]
theorem nodesOf_flatMap : nodesOf (xs.flatMap seg) = xs.flatMap fun x => nodesOf (seg x) :=
  List.flatMap_assoc

@[simp]
theorem below_nil : Below k [] := fun _ h => absurd h List.not_mem_nil

@[simp]
theorem below_cons : Below k (p :: c) ↔ p.height ≤ k ∧ Below k c := List.forall_mem_cons

@[simp]
theorem below_append : Below k (c ++ d) ↔ Below k c ∧ Below k d := List.forall_mem_append

@[simp]
theorem below_flatMap : Below k (xs.flatMap seg) ↔ ∀ x ∈ xs, Below k (seg x) :=
  List.forall_mem_flatMap

end

/-- Something was read, from a token on. -/
inductive BeginsAt (t : Token) : List Piece → Prop
  | opened {ns k c} : BeginsAt t (.opened t ns k :: c)
  | passed {c} : BeginsAt t (.ahead t :: .passed :: c)
  | tree {n k c} : BeginsAt t (.ahead t :: .tree n k :: c)

/-- The elements of a vector, each behind a bracket or commas. -/
def elementPieces (k : Nat) (ns : List Node) : List Piece :=
  ns.flatMap fun n => [.passed, .element n k]

/-- Between two states a piece was read. -/
def Piece.Between (reads : Source → Piece → State → State → Prop) (src : Source) (p : Piece)
    (s s' : State) : Prop :=
  match p with
  | .ahead t => s' = s ∧ Parse.ahead src s.rest = t
  | p => reads src p s s'

def Path (reads : Source → Piece → State → State → Prop) (src : Source) :
    List Piece → State → State → Prop
  | [], s, s' => s' = s
  | p :: c, s, s' => ∃ m, p.Between reads src s m ∧ Path reads src c m s'

/-- What pieces mean to a property of productions. -/
structure Interpretation where
  /-- Whether productions are only begun at tokens that they can begin with. -/
  placed : Prop
  /-- Whether a number may end the work. -/
  breaks : Prop
  /-- Where a production may begin. -/
  start : Source → State → Prop
  /-- Between two states a piece was read. -/
  reads : Source → Piece → State → State → Prop
  /-- Between two states a statement was given up. -/
  lost : Source → State → State → Prop
  start_reads : ∀ {src p s s'}, start src s → reads src p s s' → start src s'
  lost_behind : ∀ {src p s s' s''}, start src s → reads src p s s' → lost src s' s'' →
    lost src s s''
  start_deeper : ∀ {src s}, start src s → start src { s with depth := s.depth + 1 }
  reads_leave : ∀ {src p s s'}, reads src p s s' →
    reads src p { s with depth := s.depth - 1 } { s' with depth := s'.depth - 1 }
  lost_leave : ∀ {src s s'}, lost src s s' →
    lost src { s with depth := s.depth - 1 } { s' with depth := s'.depth - 1 }
  advance : ∀ {src s t rest}, start src s → s.rest = t :: rest →
    reads src .passed s (s.behind t rest)
  /-- The end marker is not consumed. -/
  ending : ∀ {src s}, start src s → s.rest = [] → (placed → src.stop.kind ≠ .eof) →
    reads src .passed s s
  passed_append : ∀ {src s s' s''}, start src s → reads src .passed s s' →
    reads src .passed s' s'' →
    reads src .passed s s''
  note : ∀ {src s e}, start src s → e.error? = none →
    reads src (.trees [] 0) s { s with events := s.events.push e }
  report : ∀ {src s message}, start src s → message ≠ mixture →
    (Parse.report message (ahead src s.rest).span src s).Ends (fun _ s' => reads src .reported s s')
      (fun _ => False) breaks
  unmatched : ∀ {src s}, start src s → (ahead src s.rest).kind = .symbol .rightBrace →
    (dropBrace src s).Ends (fun _ s' => reads src .skipped s s') (fun _ => False) breaks
  give_up : ∀ {src s s'}, start src s → reads src .reported s s' → lost src s s'
  passed_reported : ∀ {src s s' s''}, start src s → reads src .passed s s' →
    reads src .reported s' s'' →
    reads src .skipped s s''
  /-- A statement neither begins at the end nor at a brace that closes a block. -/
  skip : ∀ {src s s'}, start src s → lost src s s' →
    (placed → (ahead src s.rest).kind ≠ .eof ∧ (ahead src s.rest).kind ≠ .symbol .rightBrace) →
    (synchronize src s').Ends (fun _ s'' => reads src .skipped s s'') (fun _ => False) breaks
  number : ∀ {src s}, start src s → (ahead src s.rest).kind = .number →
    (∃ x, Numeral.read (ahead src s.rest).text = .ok x) ∨ breaks
  trees_nil : ∀ {src s k}, start src s → reads src (.trees [] k) s s
  trees_append : ∀ {src ns ms k s s' s''}, start src s → reads src (.trees ns k) s s' →
    reads src (.trees ms k) s' s'' → reads src (.trees (ns ++ ms) k) s s''
  raise : ∀ {src p k s s'}, reads src p s s' → p.height ≤ k → reads src (p.raise k) s s'
  gather : ∀ {src p s s'}, reads src p s s' → reads src (.trees p.nodes p.height) s s'
  element : ∀ {src n k s s'}, reads src (.tree n k) s s' → reads src (.element n k) s s'
  /-- An element and the parentheses around it. -/
  enclosed : ∀ {src n k s s' s'' s'''}, start src s → reads src .passed s s' →
    reads src (.element n k) s' s'' →
    reads src (.trees [] 0) s'' s''' → reads src (.element n k) s s'''
  open_passed : ∀ {src s s'}, start src s → reads src .passed s s' →
    reads src (.opened (ahead src s.rest) [] 0) s s'
  open_tree : ∀ {src n k s s'}, start src s → reads src (.tree n k) s s' →
    reads src (.opened (ahead src s.rest) [n] k) s s'
  opened_append : ∀ {src t ns ms k s s' s''}, start src s → reads src (.opened t ns k) s s' →
    reads src (.trees ms k) s' s'' → reads src (.opened t (ns ++ ms) k) s s''
  /-- A module definition does not add to the height. -/
  make : ∀ {src t form k l s s'}, start src s → reads src (.opened t form.written k) s s' →
    (k < l ∨ form.kind = .moduleDefinition ∧ k ≤ l) →
    reads src (.tree (s'.nextNode src t form) l) s (s'.withNode (s'.nextNode src t form))
  /-- A vector that was read is checked. -/
  checked : ∀ {src t ns k l s s'}, start src s → reads src (.opened t ns k) s s' → k < l →
    Path reads src (.ahead t :: elementPieces k ns ++ [.trees [] 0]) s s' →
    (checkUniform ns src (s'.withNode (s'.nextNode src t (.vector ns)))).Ends
      (fun _ s'' => reads src (.tree (s'.nextNode src t (.vector ns)) l) s s'')
        (fun _ => False) breaks
  /-- A body that is missing stands for nothing that was read. -/
  missing : ∀ {src t s s'}, start src s → reads src .reported s s' →
    reads src (.trees [s'.nextNode src t .empty] 1) s (s'.withNode (s'.nextNode src t .empty))

/-- Where a number may end the work and every state will do, no number need have a value. -/
theorem number_or_breaks (src : Source) (s : State) : True → (ahead src s.rest).kind = .number →
    (∃ x, Numeral.read (ahead src s.rest).text = .ok x) ∨ True :=
  fun _ _ => .inr trivial

namespace Interpretation

variable {I : Interpretation} {src : Source} {c d : List Piece} {k l : Nat} {t : Token}
  {s s' s'' : State}

abbrev Path (I : Interpretation) (src : Source) : List Piece → State → State → Prop :=
  Parse.Path I.reads src

theorem start_between {p : Piece} (hs : I.start src s) (h : p.Between I.reads src s s') :
    I.start src s' := by
  cases p with
  | ahead t =>
      obtain ⟨rfl, -⟩ := h
      exact hs
  | _ => exact I.start_reads hs h

theorem lost_between {p : Piece} (hs : I.start src s) (h : p.Between I.reads src s s')
    (hlost : I.lost src s' s'') : I.lost src s s'' := by
  cases p with
  | ahead t =>
      obtain ⟨rfl, -⟩ := h
      exact hlost
  | _ => exact I.lost_behind hs h hlost

theorem between_leave {p : Piece} (h : p.Between I.reads src s s') :
    p.Between I.reads src { s with depth := s.depth - 1 } { s' with depth := s'.depth - 1 } := by
  cases p with
  | ahead t =>
      obtain ⟨rfl, ht⟩ := h
      exact ⟨rfl, ht⟩
  | _ => exact I.reads_leave h

namespace Path

theorem append (h : I.Path src c s s') (h' : I.Path src d s' s'') : I.Path src (c ++ d) s s'' := by
  induction c generalizing s with
  | nil =>
      obtain rfl := h
      exact h'
  | cons p c ih =>
      obtain ⟨m, hp, hc⟩ := h
      exact ⟨m, hp, ih hc⟩

theorem of_append (h : I.Path src (c ++ d) s s'') :
    ∃ s', I.Path src c s s' ∧ I.Path src d s' s'' := by
  induction c generalizing s with
  | nil => exact ⟨s, rfl, h⟩
  | cons p c ih =>
      obtain ⟨m, hp, hc⟩ := h
      obtain ⟨s', hc', hd⟩ := ih hc
      exact ⟨s', ⟨m, hp, hc'⟩, hd⟩

theorem start (hs : I.start src s) (h : I.Path src c s s') : I.start src s' := by
  induction c generalizing s with
  | nil =>
      obtain rfl := h
      exact hs
  | cons p c ih =>
      obtain ⟨m, hp, hc⟩ := h
      exact ih (start_between hs hp) hc

theorem lost (hs : I.start src s) (h : I.Path src c s s') (hlost : I.lost src s' s'') :
    I.lost src s s'' := by
  induction c generalizing s with
  | nil =>
      obtain rfl := h
      exact hlost
  | cons p c ih =>
      obtain ⟨m, hp, hc⟩ := h
      exact lost_between hs hp (ih (start_between hs hp) hc)

theorem leave (h : I.Path src c s s') :
    I.Path src c { s with depth := s.depth - 1 } { s' with depth := s'.depth - 1 } := by
  induction c generalizing s with
  | nil =>
      obtain rfl := h
      rfl
  | cons p c ih =>
      obtain ⟨m, hp, hc⟩ := h
      exact ⟨_, between_leave hp, ih hc⟩

/-- Whatever was read, it was the trees in it, among other tokens. -/
theorem gather (hs : I.start src s) (h : I.Path src c s s') (hc : Below k c) :
    I.reads src (.trees (nodesOf c) k) s s' := by
  induction c generalizing s with
  | nil =>
      obtain rfl := h
      exact I.trees_nil hs
  | cons p c ih =>
      obtain ⟨m, hp, hrest⟩ := h
      obtain ⟨hk, hc⟩ := below_cons.1 hc
      have htail := ih (start_between hs hp) hrest hc
      cases p with
      | ahead t =>
          obtain ⟨rfl, -⟩ := hp
          exact htail
      | _ => exact I.trees_append hs (I.raise (I.gather hp) hk) htail

/-- Trees behind the token where they begin. -/
theorem opens (hs : I.start src s) (h : I.Path src c s s') (hc : Below k c) (ht : BeginsAt t c) :
    I.reads src (.opened t (nodesOf c) k) s s' := by
  have hbehind : ∀ {ns l m} {rest : List Piece}, I.start src m →
    I.reads src (.opened t ns l) s m → l ≤ k →
      I.Path src rest m s' → Below k rest → I.reads src (.opened t (ns ++ nodesOf rest) k) s s' :=
    fun hm ho hl hrest hbelow => I.opened_append hs (I.raise ho hl) (gather hm hrest hbelow)
  cases ht with
  | opened =>
      obtain ⟨m, hp, hrest⟩ := h
      obtain ⟨hl, hbelow⟩ := below_cons.1 hc
      exact hbehind (I.start_reads hs hp) hp hl hrest hbelow
  | passed =>
      obtain ⟨_, ⟨rfl, rfl⟩, m, hp, hrest⟩ := h
      exact hbehind (I.start_reads hs hp) (I.open_passed hs hp) (Nat.zero_le k) hrest 
        (below_cons.1 (below_cons.1 hc).2).2
  | tree =>
      obtain ⟨_, ⟨rfl, rfl⟩, m, hp, hrest⟩ := h
      obtain ⟨hl, hbelow⟩ := List.forall_mem_cons.1 (below_cons.1 hc).2
      exact hbehind (I.start_reads hs hp) (I.open_tree hs hp) hl hrest hbelow

end Path

end Interpretation

/-- Where some pieces were read, others were, in the sense of an interpretation. -/
def Entails (I : Interpretation) (c d : List Piece) : Prop :=
  ∀ src s s', I.start src s → I.Path src c s s' → I.Path src d s s'

/-- Begun behind some pieces, a production ends with the pieces that go with its value. -/
def Builds (I : Interpretation) (c : List Piece) (p : Parser α) (out : α → List Piece) : Prop :=
  ∀ src s₀ s, I.start src s₀ → I.Path src c s₀ s →
    (p src s).Ends (fun a s' => I.Path src (out a) s₀ s') (I.lost src s₀) I.breaks

variable {I : Interpretation} {b c d : List Piece} {k l : Nat} {t : Token}

namespace Entails

theorem refl (c : List Piece) : Entails I c c := fun _ _ _ _ h => h

theorem skipped : Entails I [.passed, .reported] [.skipped] := by
  rintro src s s' hs ⟨_, hpassed, _, hreported, rfl⟩
  exact ⟨_, I.passed_reported hs hpassed hreported, rfl⟩

/-- Before what is entailed the same was read. -/
theorem right {d' : List Piece} (c : List Piece) (h : Entails I d d') :
    Entails I (c ++ d) (c ++ d') := by
  intro src s s' hs hp
  obtain ⟨m, hc, hd⟩ := Interpretation.Path.of_append hp
  exact hc.append (h src m s' (hc.start hs) hd)

/-- The trees that were read, among other tokens. -/
theorem gather {ns : List Node} (hns : nodesOf c = ns) (hc : Below k c) :
    Entails I c [.trees ns k] :=
  fun _ _ _ hs h => ⟨_, hns ▸ h.gather hs hc, rfl⟩

theorem looked : Entails I (.ahead t :: c) c := by
  rintro src s s' _ ⟨_, ⟨rfl, -⟩, h⟩
  exact h

/-- A tree alone, where the token at which it begins was looked at. -/
theorem tree {n : Node} (hk : k ≤ l) : Entails I [.ahead t, .tree n k] [.tree n l] := by
  rintro src s s' _ ⟨_, ⟨rfl, -⟩, m, hn, rfl⟩
  exact ⟨_, I.raise hn hk, rfl⟩

theorem element {n : Node} (hk : k ≤ l) : Entails I [.tree n k] [.element n l] := by
  rintro src s s' _ ⟨m, hn, rfl⟩
  exact ⟨_, I.element (I.raise hn hk), rfl⟩

theorem raise {n : Node} (hk : k ≤ l) : Entails I [.tree n k] [.tree n l] := by
  rintro src s s' _ ⟨m, hn, rfl⟩
  exact ⟨_, I.raise hn hk, rfl⟩

theorem raise_element {n : Node} (hk : k ≤ l) : Entails I [.element n k] [.element n l] := by
  rintro src s s' _ ⟨m, hn, rfl⟩
  exact ⟨_, I.raise hn hk, rfl⟩

/-- An element in parentheses. -/
theorem enclosed {n : Node} :
    Entails I [.ahead t, .passed, .element n k, .trees [] 0] [.element n k] := by
  rintro src s s' hs ⟨_, ⟨rfl, -⟩, a, hpassed, b, hn, m, hrest, rfl⟩
  exact ⟨_, I.enclosed hs hpassed hn hrest, rfl⟩

/-- Trees behind the token where they begin. -/
theorem opened {ns : List Node} (ht : BeginsAt t c) (hns : nodesOf c = ns) (hc : Below k c) :
    Entails I c [.opened t ns k] := fun _ _ _ hs h => ⟨_, hns ▸ h.opens hs hc ht, rfl⟩

end Entails

namespace Builds

variable {out : α → List Piece} {result : β → List Piece}

theorem pure {a : α} (h : Entails I c (out a)) : Builds I c (Pure.pure a) out :=
  fun src _ s hs hc => h src _ s hs hc

/-- Nothing was read. -/
theorem idle {a : α} (h : out a = c) : Builds I c (Pure.pure a) out := pure (h ▸ .refl _)

theorem mono {p : Parser α} {out' : α → List Piece} (h : Builds I c p out)
    (hout : ∀ a, Entails I (out a) (out' a)) : Builds I c p out' :=
  fun src _ s hs hc => (h src _ s hs hc).mono (fun a s' ha => hout a src _ s' hs ha) fun _ h => h

theorem entailed {p : Parser α} (h : Builds I d p out) (hc : Entails I c d) : Builds I c p out :=
  fun src _ s hs hp => h src _ s hs (hc src _ s hs hp)

theorem bind {p : Parser α} {f : α → Parser β} (hp : Builds I c p out)
    (hf : ∀ a, Builds I (out a) (f a) result) :
    Builds I c (p >>= f) result :=
  fun src _ s hs hc => (hp src _ s hs hc).bind (fun a s' ha => hf a src _ s' hs ha) fun _ h => h

/-- What was read before a production stays before what it reads. -/
theorem frame {p : Parser α} (b : List Piece) (h : Builds I c p out) :
    Builds I (b ++ c) p fun a => b ++ out a := by
  intro src s₀ s hs hc
  obtain ⟨m, hb, hc⟩ := Interpretation.Path.of_append hc
  exact (h src m s (hb.start hs) hc).mono (fun a s' ha => hb.append ha) fun s' h => hb.lost hs h

/-- A production behind what was read. -/
theorem next {p : Parser α} {f : α → Parser β} (hp : Builds I [] p out)
    (hf : ∀ a, Builds I (c ++ out a) (f a) result) : Builds I c (p >>= f) result := by
  have hframe := frame c hp
  rw [List.append_nil] at hframe
  exact hframe.bind hf

/-- A step that does nothing to the state. -/
theorem still {p : Parser α} {f : α → Parser β} (hp : ∀ src s, ∃ a, p src s = .done a s)
    (hf : ∀ a, Builds I c (f a) result) : Builds I c (p >>= f) result := by
  intro src s₀ s hs hc
  obtain ⟨a, ha⟩ := hp src s
  show (Parser.bind p f src s).Ends _ _ _
  unfold Parser.bind
  rw [ha]
  exact hf a src s₀ s hs hc

theorem look {f : Token → Parser β} (hf : ∀ t, Builds I (c ++ [.ahead t]) (f t) result) :
    Builds I c (current >>= f) result :=
  fun src _ s hs hc => hf _ src _ s hs (hc.append ⟨_, ⟨rfl, rfl⟩, rfl⟩)

/-- Looking again shows the same token. -/
theorem again {f : Token → Parser β} (hf : Builds I [.ahead t] (f t) result) :
    Builds I [.ahead t] (current >>= f) result := by
  rintro src s₀ _ hs ⟨_, ⟨rfl, rfl⟩, rfl⟩
  exact hf src _ _ hs ⟨_, ⟨rfl, rfl⟩, rfl⟩

/-- Every production begins before some token. -/
theorem begin {p : Parser α} (h : ∀ t, Builds I [.ahead t] p out) : Builds I [] p out :=
  fun src _ s hs hc => h _ src _ s hs ⟨_, ⟨rfl, rfl⟩, hc⟩

theorem unless_looked {p : Parser α} (h : Builds I [] p out) : Builds I [.ahead t] p out := by
  rintro src s₀ s hs ⟨_, ⟨rfl, -⟩, hc⟩
  exact h src _ s hs hc

theorem peek {f : Token → Parser β} (hf : ∀ u, Builds I c (f u) result) :
    Builds I c (Parse.peek >>= f) result :=
  still (fun _ _ => ⟨_, rfl⟩) hf

theorem place {f : Nat → Parser β} (hf : ∀ i, Builds I c (f i) result) :
    Builds I c (Parse.place >>= f) result :=
  still (fun _ _ => ⟨_, rfl⟩) hf

/-- Both ways on from a test of the token ahead. -/
theorem test {k : TokenKind} {p q : Parser β} (hp : Builds I c p result)
    (hq : Builds I c q result) :
    Builds I c (atKind k >>= fun b => if b = true then p else q) result := by
  refine still (fun _ _ => ⟨_, rfl⟩) fun b => ?_
  split
  · exact hp
  · exact hq

/-- The same at the beginning, where the token is one that the production begins with. -/
theorem branch {k : TokenKind} {p q : Parser β}
    (hp : ∀ t, t.kind = k → Builds I [.ahead t] p result) (hq : Builds I [] q result) :
    Builds I [] (atKind k >>= fun b => if b = true then p else q) result := by
  have hlook : Builds I [] (current >>= fun t => if decide (t.kind = k) = true then p
      else q) result := by
    refine look fun t => ?_
    split
    · rename_i hk
      exact hp t (of_decide_eq_true hk)
    · exact hq.unless_looked
  exact hlook

theorem passed : Builds I [] advance fun _ => [.trees [] 0] := by
  rintro src s₀ _ hs rfl
  unfold advance
  split
  · exact ⟨_, I.trees_nil hs, rfl⟩
  · rename_i t rest hr
    exact ⟨_, I.gather (I.advance hs hr), rfl⟩

/-- Consuming a token that may not be there. -/
theorem skip {f : Token → Parser β} (hf : ∀ u, Builds I (c ++ [.trees [] 0]) (f u) result) :
    Builds I c (advance >>= f) result := next passed hf

/-- The token at which a production begins is consumed. -/
theorem take {f : Token → Parser β} (hk : I.placed → t.kind ≠ .eof)
    (hf : Builds I [.ahead t, .passed] (f t) result) :
    Builds I [.ahead t] (advance >>= f) result := by
  rintro src _ s hs ⟨_, ⟨rfl, rfl⟩, rfl⟩
  show (Parser.bind advance f src s).Ends _ _ _
  unfold Parser.bind advance
  cases hr : s.rest with
  | nil =>
      rw [ahead, hr] at hk hf
      exact hf src _ _ hs ⟨_, ⟨rfl, by rw [ahead, hr]⟩, _, I.ending hs hr hk, rfl⟩
  | cons t rest =>
      rw [ahead, hr] at hf
      exact hf src _ _ hs ⟨_, ⟨rfl, by rw [ahead, hr]⟩, _, I.advance hs hr, rfl⟩

theorem report {message : String} (hm : message ≠ mixture) :
    Builds I [.ahead t] (report message t.span) fun _ => [.reported] := by
  rintro src s₀ _ hs ⟨_, ⟨rfl, rfl⟩, rfl⟩
  exact (I.report hs hm).mono (fun _ s' h => ⟨_, h, rfl⟩) fun _ h => h.elim

/-- An error at the next token, and then on. -/
theorem complain {message : String} {f : Unit → Parser β} (hm : message ≠ mixture)
    (hf : ∀ u, Builds I (c ++ [.trees [] 0]) (f u) result) :
    Builds I c (current >>= fun t => Parse.report message t.span >>= f) result :=
  look fun _ => (frame c (report hm)).bind fun u =>
    (hf u).entailed (.right c (.gather rfl (by simp)))

theorem fail {message : String} (hm : message ≠ mixture) :
    Builds I c (fail message : Parser α) out := by
  intro src s₀ s hs hc
  exact (I.report (hc.start hs) hm).bind (f := fun _ => abandon)
    (fun _ s' h => hc.lost hs (I.give_up (hc.start hs) h)) fun _ h => h.elim

/-- What was read becomes a node. -/
theorem make {form : Form Node} (ht : BeginsAt t c) (hw : nodesOf c = form.written)
    (hc : Below k c) :
    Builds I c (make t form) fun n => [.tree n (k + 1)] := by
  intro src s₀ s hs h
  have hopened := h.opens hs hc ht
  rw [hw] at hopened
  exact ⟨_, I.make hs hopened (.inl (Nat.lt_succ_self k)), rfl⟩

/-- The definition of a module does not add to the height of what stands in it. -/
theorem define {name : String} {params : List Node} {body : Node} (ht : BeginsAt t c)
    (hw : nodesOf c = params ++ [body]) (hc : Below k c) :
    Builds I c (Parse.make t (.moduleDefinition name params body)) fun n => [.tree n k] := by
  intro src s₀ s hs h
  have hopened := h.opens hs hc ht
  have hnodes : nodesOf c = (Form.moduleDefinition name params body).written := hw
  rw [hnodes] at hopened
  exact ⟨_, I.make hs hopened (.inr ⟨rfl, Nat.le_refl k⟩), rfl⟩

/-- A node that becomes part of another at the same token. -/
theorem making {form : Form Node} {f : Node → Parser β} (ht : BeginsAt t (.ahead t :: c))
    (hw : nodesOf c = form.written) (hc : Below k c)
    (hf : ∀ n, Builds I [.ahead t, .tree n (k + 1)] (f n) result) :
    Builds I (.ahead t :: c) (Parse.make t form >>= f) result := by
  have hmake : Builds I (.ahead t :: c) (Parse.make t form) fun n =>
      [.ahead t, .tree n (k + 1)] := by
    rintro src s₀ s hs ⟨_, ⟨rfl, hahead⟩, h⟩
    have hopened := Interpretation.Path.opens (c := .ahead t :: c) hs ⟨_, ⟨rfl, hahead⟩, h⟩
      (below_cons.2 ⟨Nat.zero_le k, hc⟩) ht
    have hnodes : nodesOf (.ahead t :: c) = form.written := hw
    rw [hnodes] at hopened
    exact ⟨_, ⟨rfl, hahead⟩, _, I.make hs hopened (.inl (Nat.lt_succ_self k)), rfl⟩
  exact hmake.bind hf

theorem note {e : Event} (he : e.error? = none) : Builds I [] (note e) fun _ => [.trees [] 0] := by
  rintro src s₀ _ hs rfl
  exact ⟨_, I.note hs he, rfl⟩

/-- The value of a number token that was next. -/
theorem number {f : Number → Parser β} (ht : t.kind = .number)
    (hf : ∀ x, Builds I [.ahead t, .passed] (f x) result) :
    Builds I [.ahead t, .passed] (numberValue t.text >>= f) result := by
  rintro src _ s hs ⟨s₀, ⟨rfl, rfl⟩, hpassed⟩
  show (Parser.bind (numberValue _) f src s).Ends _ _ _
  unfold Parser.bind numberValue
  cases hread : Numeral.read (ahead src s₀.rest).text with
  | ok x => exact hf (.real x) src s₀ s hs ⟨_, ⟨rfl, rfl⟩, hpassed⟩
  | error fault =>
      rcases I.number hs ht with ⟨x, hx⟩ | hbreaks
      · rw [hread] at hx
        cases hx
      · exact hbreaks

/-- Another level is open while a production runs. -/
theorem nested {p : Parser α} (h : Builds I c p out) (hc : c = [] ∨ ∃ t, c = [.ahead t]) :
    Builds I c (nested p) out := by
  intro src s₀ s hs hpath
  have hat : s₀ = s ∧
      I.Path src c { s with depth := s.depth + 1 } { s with depth := s.depth + 1 } := by
    rcases hc with rfl | ⟨t, rfl⟩
    · obtain rfl := hpath
      exact ⟨rfl, rfl⟩
    · obtain ⟨_, ⟨rfl, ht⟩, rfl⟩ := hpath
      exact ⟨rfl, _, ⟨rfl, ht⟩, rfl⟩
  obtain ⟨rfl, hdeeper⟩ := hat
  exact ends_nested ((h src _ _ (I.start_deeper hs) hdeeper).mono
    (fun _ _ ha => ha.leave) fun _ h => I.lost_leave h) (fail (by decide) src s₀ s₀ hs hpath)

theorem iterate {step : Parser (Option α)} {last : List Piece} {seg : α → List Piece}
    (hlast : Entails I [] last) (h : Builds I [] step fun o => o.elim last seg)
    (fuel : List Token) :
    Builds I [] (Parser.iterate step fuel) fun as => as.flatMap seg ++ last := by
  induction fuel with
  | nil =>
      refine h.bind fun o => ?_
      cases o with
      | none => exact .idle rfl
      | some a =>
          refine .pure fun src s s' hs ha => ?_
          rw [Option.toList_some, List.flatMap_singleton]
          exact ha.append (hlast src s' s' (ha.start hs) rfl)
  | cons t fuel ih =>
      refine h.bind fun o => ?_
      cases o with
      | none => exact .idle rfl
      | some a => exact next ih fun as => .idle (by simp)

/-- What the passes of a loop read, and behind that what the last one read, which gave nothing. -/
theorem many {step : Parser (Option α)} {last : List Piece} {seg : α → List Piece}
    (hlast : Entails I [] last) (h : Builds I [] step fun o => o.elim last seg) :
    Builds I [] (Parser.many step) fun as => as.flatMap seg ++ last :=
  fun src _ s hs hc => iterate hlast h s.rest src _ s hs hc

/-- What was given up is skipped. -/
theorem recovering {p : Parser (Option Node)} {seg : Node → List Piece}
    (ht : I.placed → t.kind ≠ .eof ∧ t.kind ≠ .symbol .rightBrace)
    (h : Builds I [] p fun o => o.elim [.skipped] seg) :
    Builds I [.ahead t] (recovering p) fun o => o.elim [.skipped] seg := by
  rintro src _ s hs ⟨_, ⟨rfl, rfl⟩, rfl⟩
  have hrun := h src s s hs rfl
  unfold Parse.recovering
  split
  · rename_i m hm
    rw [hm] at hrun
    exact (I.skip hs hrun ht).bind (f := fun _ => Pure.pure none)
      (fun _ s' hskip => ⟨s', hskip, rfl⟩) fun _ h => h.elim
  · exact hrun

/-- A closing brace is dropped, and then on. -/
theorem unmatched {f : Unit → Parser β} (ht : t.kind = .symbol .rightBrace)
    (hf : ∀ u, Builds I [.skipped] (f u) result) : Builds I [.ahead t] (do
      Parse.note (.discarded (← Parse.place))
      let brace ← advance
      Parse.report "unmatched '\x7d'" brace.span
      f ()) result := by
  have hdrop : Builds I [.ahead t] dropBrace fun _ => [.skipped] := by
    rintro src _ s hs ⟨_, ⟨rfl, rfl⟩, rfl⟩
    exact (I.unmatched hs ht).mono (fun _ s' h => ⟨s', h, rfl⟩) fun _ h => h.elim
  simpa only [dropBrace, Parser.bind_assoc] using hdrop.bind hf

/-- The elements of a vector, which becomes a node and is checked. -/
theorem checked {elements : List Node}
    (hc : Entails I c (.ahead t :: elementPieces k elements ++ [.trees [] 0]))
    (he : elements ≠ []) :
    Builds I c (do
      let vector ← Parse.make t (.vector elements)
      checkUniform elements
      return vector) fun n => [.tree n (k + 1)] := by
  obtain ⟨first, more, rfl⟩ := List.exists_cons_of_ne_nil he
  intro src s₀ s hs h
  have hpath := hc src s₀ s hs h
  have hopened := hpath.opens (k := k) hs (by simp [elementPieces]) .passed
  rw [nodesOf_append, nodesOf_cons, elementPieces, nodesOf_flatMap] at hopened
  have hvector : I.reads src (.opened t (first :: more) k) s₀ s := by simpa using hopened
  exact (I.checked hs hvector (Nat.lt_succ_self k) hpath).bind
    (f := fun _ => Pure.pure (s.nextNode src t (.vector (first :: more))))
    (fun _ s' hn => ⟨s', hn, rfl⟩) fun _ h => h.elim

/-- An empty statement in the place of one that is missing. -/
theorem missing {f : Node → Parser β}
    (hf : ∀ n, Builds I (c ++ [.passed, .trees [n] 1]) (f n) result) :
    Builds I (c ++ [.passed, .reported]) (current >>= fun t => Parse.make t .empty >>=
      f) result := by
  have hempty (t : Token) : Builds I [.passed, .reported] (Parse.make t .empty) fun n =>
      [.passed, .trees [n] 1] := by
    rintro src s₀ s hs ⟨m, hpassed, _, hreported, rfl⟩
    exact ⟨m, hpassed, _, I.missing (I.start_reads hs hpassed) hreported, rfl⟩
  exact still (fun _ _ => ⟨_, rfl⟩) fun t => ((hempty t).frame c).bind hf

/-- What is said of a missing token begins otherwise than what is said of a vector. -/
theorem ne_mixture {first rest : String} (h : first.toList.head?.any (· ≠ 'l')) :
    first ++ rest ≠ mixture := by
  intro he
  have hhead := congrArg (·.toList.head?) he
  rw [String.toList_append] at hhead
  cases hf : first.toList with
  | nil => simp [hf] at h
  | cons c cs =>
      rw [hf] at h hhead
      have hc : c = 'l' := Option.some.inj hhead
      simp [hc] at h

theorem expect (k : TokenKind) : Builds I [] (expect k) fun _ => [.trees [] 0] := by
  refine look fun t => ?_
  split
  · exact skip fun _ => pure (.gather (by simp) (by simp))
  · refine (report ?_).bind fun _ => pure (.gather (by simp) (by simp))
    rw [String.append_assoc, String.append_assoc]
    exact ne_mixture (by decide)

theorem expectSymbol (sign : Symbol) : Builds I [] (expectSymbol sign) fun _ => [.trees [] 0] :=
  (expect _).bind fun _ => idle rfl

/-- The symbol at which a production begins. -/
theorem leading {sign : Symbol} (hk : t.kind = .symbol sign) :
    Builds I [.ahead t] (Parse.expectSymbol sign) fun _ => [.ahead t, .passed] := by
  have hexpect : Builds I [.ahead t] (Parse.expect (.symbol sign)) fun _ =>
      [.ahead t, .passed] := by
    refine again ?_
    rw [if_pos hk]
    exact take (fun _ => by rw [hk]; simp) (idle rfl)
  exact hexpect.bind fun _ => idle rfl

theorem identifier : Builds I [] identifier fun _ => [.trees [] 0] := by
  refine (expect _).bind fun o => ?_
  cases o <;> exact idle rfl

end Builds

end Parse

end Scad
