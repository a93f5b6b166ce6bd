import Scad.Proofs.Parse.Building.Expression

/-! What the productions for statements build. -/
namespace Scad.Parse

variable {I : Interpretation} {c : List Piece} {k : Nat} {t : Token}

attribute [local simp] Form.written Form.children Form.fields Field.children

structure StatementPieces (I : Interpretation) (deeper : StatementRules) (k : Nat) : Prop where
  block : ∀ t, (I.placed → t.kind ≠ .eof) → Builds I [.ahead t] deeper.block fun ns =>
    [.opened t ns k]
  instantiation : Builds I [] deeper.instantiation fun n => [.tree n k]

theorem builds_closeBlock (opening : Nat) :
    Builds I [] (closeBlock opening) fun _ => [.trees [] 0] := by
  refine .place fun closing => (Builds.expect _).bind fun o => ?_
  cases o with
  | some brace =>
      have hnote : Builds I [] (note (.block opening closing)) fun _ => [.trees [] 0] := .note rfl
      exact (hnote.frame [.trees [] 0]).mono fun _ => .gather (by simp) (by simp)
  | none => exact .idle rfl

section

variable {deeper : StatementRules} (hd : StatementPieces I deeper (k + 1))

include hd

theorem builds_block (hk : I.placed → t.kind ≠ .eof) :
    Builds I [.ahead t] (block deeper) fun n => [.tree n (k + 2)] :=
  .again <| .place fun opening => (hd.block t hk).bind fun statements =>
    .next (builds_closeBlock opening) fun _ =>
    .make .opened (by simp) (by simp)

theorem builds_child : Builds I [] (child deeper) fun n => [.tree n (k + 2)] := by
  refine .look fun t => ?_
  split
  · rename_i hk
    exact .take (fun _ => by rw [hk]; simp) (.make .passed (by simp) (by simp))
  · rename_i hk
    exact builds_block hd fun _ => by rw [hk]; simp
  · exact (hd.instantiation.mono fun _ => .raise (by omega)).unless_looked

/-! ### Instantiations -/

variable {rules : ExpressionRules} (h : ExpressionPieces I rules (k + 1))

include h

theorem builds_moduleCall (hk : I.placed → t.kind ≠ .eof) :
    Builds I [.ahead t] (moduleCall deeper rules t) fun n => [.tree n (k + 4)] :=
  .take hk <| .making (k := 0) .passed rfl (by simp) fun name =>
    .next (builds_arguments h _) fun args => .making (k := k + 2) .tree (by simp)
      (by simp) fun head =>
      .next (builds_child hd) fun below => .make .tree (by simp) (by simp)

theorem builds_moduleRemark {verb : Verb} (hk : I.placed → t.kind ≠ .eof) :
    Builds I [.ahead t] (moduleRemark deeper rules verb t) fun n => [.tree n (k + 4)] :=
  .take hk <| .next (builds_arguments h false) fun _ => .next (builds_child hd) fun _ =>
    .make .passed (by simp) (by simp)

theorem builds_payload : Builds I [] (payload deeper rules) fun n => [.tree n (k + 4)] := by
  refine .look fun t => ?_
  split
  · rename_i hk
    exact .take (fun _ => by rw [hk]; simp) <| .next (.expectSymbol _) fun _ =>
      .next h.expression fun _ =>
      .next (.expectSymbol _) fun _ => .next (builds_child hd) fun _ =>
        .next (builds_elseBranch (k := k + 2) ((builds_child hd).mono fun _ => .gather (by simp)
          (by simp))) fun _ =>
          .make .passed (by simp) (by simp)
  · rename_i hk
    exact builds_moduleRemark hd h fun _ => by rw [hk]; simp
  · rename_i hk
    exact builds_moduleRemark hd h fun _ => by rw [hk]; simp
  · rename_i hk
    exact builds_moduleCall hd h fun _ => by rw [hk]; simp
  · rename_i hk
    exact builds_moduleCall hd h fun _ => by rw [hk]; simp
  · rename_i hk
    exact builds_moduleCall hd h fun _ => by rw [hk]; simp
  · rename_i hk
    exact builds_moduleCall hd h fun _ => by rw [hk]; simp
  · exact .fail (Builds.ne_mixture (by decide))

omit hd h in
theorem builds_mark : Builds I [] mark? fun o => o.elim [] fun _ => [.passed] := by
  refine .look fun t => ?_
  split
  · rename_i mark hm
    refine .take (fun _ he => ?_) (.pure .looked)
    rw [he] at hm
    cases hm
  · exact .pure .looked

theorem builds_instantiation :
    Builds I [] (instantiation deeper rules) fun n => [.tree n (k + 5)] := by
  refine .look fun start => .next (.many (.refl []) builds_mark) fun marks =>
    .next (builds_payload hd h) fun _ => ?_
  cases marks with
  | nil => exact .make .tree (by simp) (by simp)
  | cons mark more => exact .make .passed (by simp) (by simp)

/-! ### Statements -/

omit hd in
theorem builds_functionDefinition (hk : I.placed → t.kind ≠ .eof) :
    Builds I [.ahead t] (functionDefinition rules) fun n => [.tree n (k + 3)] :=
  .take hk <| .next .identifier fun _ => .next (builds_parameters h) fun _ =>
    .next (.expectSymbol _) fun _ =>
    .next h.expression fun _ => .next (.expectSymbol _) fun _ => .make .passed (by simp) (by simp)

omit hd h in
/-- Without a file something was read all the same. -/
theorem builds_fileReference {inclusion : Inclusion} (hk : I.placed → t.kind ≠ .eof) :
    Builds I [.ahead t] (fileReference inclusion) fun o => o.elim [.passed, .reported] fun n =>
      [.tree n (k + 1)] := by
  refine .take hk <| .look fun u => ?_
  split
  · exact .skip fun _ => (Builds.make .passed (by simp) (by simp)).bind fun _ => .idle rfl
  · refine (Builds.frame [.ahead t, .passed] (.report ?_)).bind fun _ => .pure .looked
    rw [String.append_assoc, String.append_assoc, String.append_assoc, String.append_assoc]
    exact Builds.ne_mixture (by decide)

omit hd in
theorem builds_assignmentStatement (hk : I.placed → isIdentifier t.kind) :
    Builds I [.ahead t] (assignmentStatement rules) fun n => [.tree n (k + 2)] :=
  (opens_assignmentParts h hk).bind fun _ => .next (.expectSymbol _) fun _ =>
    .make .opened (by simp) (by simp)

theorem builds_plainStatement :
    Builds I [] (plainStatement deeper rules) fun o => o.elim [.passed, .reported] fun n =>
      [.tree n (k + 5)] := by
  have hsome {c : List Piece} {p : Parser Node} {l : Nat} (hp : Builds I c p fun n => [.tree n l])
    (hl : l ≤ k + 5) :
      Builds I c (do return some (← p)) fun o => o.elim [.passed, .reported] fun n =>
        [.tree n (k + 5)] :=
    (hp.mono fun _ => .raise hl).bind fun _ => .idle rfl
  refine .look fun t => ?_
  split
  · rename_i hk
    exact .take (fun _ => by rw [hk]; simp)
      (hsome (l := k + 5) (.make .passed (by simp) (by simp)) (by simp))
  · rename_i hk
    exact hsome (builds_block hd fun _ => by rw [hk]; simp) (by omega)
  · rename_i hk
    exact hsome (builds_functionDefinition h fun _ => by rw [hk]; simp) (by omega)
  · rename_i hk
    exact builds_fileReference fun _ => by rw [hk]; simp
  · rename_i hk
    exact builds_fileReference fun _ => by rw [hk]; simp
  · rename_i hk
    refine .peek fun u => ?_
    split
    · exact hsome (builds_assignmentStatement h fun _ => by rw [hk]; rfl) (by omega)
    · exact (hsome (builds_instantiation hd h) (Nat.le_refl _)).unless_looked
  · exact (hsome (builds_instantiation hd h) (Nat.le_refl _)).unless_looked

/-! ### Definitions of modules -/

abbrev headerPieces (k : Nat) (header : ModuleHeader) : List Piece :=
  [.opened header.start header.parameters k]

omit hd in
theorem builds_moduleHeader :
    Builds I [] (moduleHeader? rules) fun o => o.elim [] (headerPieces (k + 2)) :=
  .branch (fun t hk => .take (fun _ => by rw [hk]; simp) <| .next .identifier fun _ =>
    .next (builds_parameters h) fun _ => .pure (.opened .passed (by simp) (by simp))) (.idle rfl)

omit hd h in
/-- Definitions around a body may be as many as there are: they do not add to the height. -/
theorem builds_wrapModules {body : Node} {header : ModuleHeader}
    {headers : List ModuleHeader} {l : Nat} (hbody : nodesOf c = [body]) (hbelow : Below k c)
    (hl : l ≤ k) :
    Builds I ((header :: headers).flatMap (headerPieces l) ++ c)
      (wrapModules body (header :: headers)) fun n => [.tree n k] := by
  have hdefine {c : List Piece} {header : ModuleHeader} {p : Parser Node}
    (hp : Builds I c p fun n => [.trees [n] k]) :
      Builds I (headerPieces l header ++ c) (do
        let inner ← p
        make header.start (.moduleDefinition header.name header.parameters inner)) fun n =>
        [.tree n k] :=
    (hp.frame (headerPieces l header)).bind fun inner => .define .opened (by simp)
      (by simpa using hl)
  have hinner (headers : List ModuleHeader) :
      Builds I (headers.flatMap (headerPieces l) ++ c) (wrapModules body headers) fun n =>
        [.trees [n] k] := by
    induction headers with
    | nil => exact .pure (.gather hbody hbelow)
    | cons header headers ih => exact (hdefine ih).mono fun n => .gather (by simp) (by simp)
  exact hdefine (hinner headers)

theorem builds_statement :
    Builds I [] (statement deeper rules) fun o => o.elim [.passed, .reported] fun n =>
      [.tree n (k + 5)] := by
  refine (Builds.many (.refl []) (builds_moduleHeader h)).bind fun headers =>
    .next (builds_plainStatement hd h) fun body => ?_
  rw [List.append_nil]
  cases headers with
  | nil => exact .idle rfl
  | cons header headers =>
      cases body with
      | some body =>
          exact (builds_wrapModules (by simp) (by simp) (by omega)).bind fun n => .idle rfl
      | none =>
          refine .missing fun empty => ?_
          exact (builds_wrapModules (by simp) (by simp) (by omega)).bind fun n => .idle rfl

/-! ### Lists of statements -/

/-- Where a statement was expected, there was one, or something was skipped. -/
abbrev statementPieces (k : Nat) (found : Option Node) : List Piece :=
  found.elim [.skipped] fun n => [.tree n k]

theorem builds_statementStep (inBlock : Bool) :
    Builds I [] (statementStep deeper rules inBlock) fun o =>
      o.elim [] (statementPieces (k + 5)) := by
  refine .look fun t => ?_
  split
  · exact .pure .looked
  · rename_i hk
    split
    · exact .pure .looked
    · exact .unmatched (f := fun _ => pure (some none)) hk fun _ => .pure (.refl _)
  · rename_i heof hbrace
    have hstatement : Builds I [] (statement deeper rules) (statementPieces (k + 5)) :=
      (builds_statement hd h).mono fun o => by
        cases o with
        | none => exact .skipped
        | some n => exact .refl _
    exact (hstatement.recovering fun _ => ⟨heof, hbrace⟩).bind fun o => .idle rfl

theorem builds_statements (inBlock : Bool) :
    Builds I [] (statements deeper rules inBlock) fun ns => [.trees ns (k + 5)] := by
  refine (Builds.many (.refl []) (builds_statementStep hd h inBlock)).bind fun found =>
    .pure (.gather ?_ ?_)
  · rw [List.append_nil, nodesOf_flatMap, List.filterMap_eq_flatMap_toList]
    exact List.flatMap_congr fun x _ => by cases x <;> rfl
  · rw [List.append_nil, below_flatMap]
    intro x _
    cases x <;> simp

theorem builds_blockBody (hk : I.placed → t.kind ≠ .eof) :
    Builds I [.ahead t] (blockBody deeper rules) fun ns => [.opened t ns (k + 5)] :=
  .take hk <| (Builds.frame [.ahead t, .passed] (builds_statements hd h true)).mono fun ns =>
    .opened .passed (by simp) (by simp)

end

/-- With some levels left, statements are at most twelve times as high. -/
theorem builds_statementRules (budget : Nat) :
    StatementPieces I (statementRules budget) (12 * budget + 1) := by
  induction budget with
  | zero => exact ⟨fun _ _ => .fail (by decide), .fail (by decide)⟩
  | succ budget ih =>
      have h := builds_expressionRules (I := I) budget
      refine ⟨fun t hk => .nested ?_ (.inr ⟨t, rfl⟩), .nested ?_ (.inl rfl)⟩
      · exact (builds_blockBody ih h hk).mono fun ns => .opened .opened (by simp) (by simp; omega)
      · exact (builds_instantiation ih h).mono fun n => .raise (by omega)

/-- The statements of a text. -/
theorem builds_program : Builds I [] program fun ns => [.trees ns (12 * maxNesting + 5)] :=
  builds_statements (builds_statementRules maxNesting) (builds_expressionRules maxNesting) false

end Scad.Parse
