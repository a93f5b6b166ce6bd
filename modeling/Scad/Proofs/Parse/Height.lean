import Mathlib.Data.List.Chain
import Scad.Proofs.Parse.Building.Statement
import Scad.Proofs.Parse.Recovery
import Scad.Token.Stream

/-! How high the trees of a text are. Whatever nests opens a level, module definitions apart, and
between two levels there are at most twelve nodes on the way down. So the limit on open levels is a
limit on the height of every tree, whatever the tokens are. -/
namespace Scad

/-- On every way down from a node there are at most so many nodes, module definitions apart. -/
inductive Node.Within : Nat → Node → Prop
  | part {n : Node} {k : Nat} (children : ∀ c ∈ n.children, c.Within k) : n.Within (k + 1)
  | definition {n : Node} {k : Nat} (kind : n.kind = .moduleDefinition)
      (children : ∀ c ∈ n.children, c.Within k) :
      n.Within k

namespace Node.Within

variable {n : Node} {k l : Nat}

theorem mono (h : n.Within k) (hk : k ≤ l) : n.Within l := by
  induction h generalizing l with
  | part _ ih =>
      obtain ⟨l, rfl⟩ := Nat.exists_eq_succ_of_ne_zero (n := l) (by omega)
      exact .part fun c hc => ih c hc (Nat.le_of_succ_le_succ hk)
  | definition kind _ ih => exact .definition kind fun c hc => ih c hc hk

/-- Going down from a node part by part. -/
theorem way (h : n.Within k) {below : List Node}
    (hway : (n :: below).IsChain fun m c => c ∈ m.children) :
    (n :: below).countP (·.kind ≠ .moduleDefinition) ≤ k := by
  induction below generalizing n k with
  | nil =>
      cases h with
      | part => exact Nat.le_trans List.countP_le_length (Nat.le_add_left ..)
      | definition kind => simp [kind]
  | cons c rest ih =>
      obtain ⟨hc, hrest⟩ := List.isChain_cons_cons.1 hway
      rw [List.countP_cons]
      cases h with
      | part children =>
          have hbelow := ih (children c hc) hrest
          split <;> omega
      | definition kind children =>
          have hbelow := ih (children c hc) hrest
          simpa [kind] using hbelow

end Node.Within

namespace Parse

/-- A step that always ends. -/
theorem ends_dropBrace (src : Source) (s : State) :
    (dropBrace src s).Ends (fun _ _ => True) (fun _ => False) False := by
  obtain ⟨t, m, h⟩ : ∃ t m, advance src s.dropping = .done t m := by
    unfold advance
    split <;> exact ⟨_, _, rfl⟩
  rw [dropBrace_eq h]
  exact (sameButErrors_report _ _ src m).mono (fun _ _ _ => trivial) fun _ h => h

def bounded : Interpretation where
  placed := False
  breaks := True
  start _ _ := True
  reads _ p _ _ := ∀ n ∈ p.nodes, n.Within p.height
  lost _ _ _ := True
  start_reads _ _ := trivial
  lost_behind _ _ _ := trivial
  start_deeper _ := trivial
  reads_leave h := h
  lost_leave _ := trivial
  advance _ _ := by simp
  ending _ _ _ := by simp
  passed_append _ _ _ := by simp
  note _ _ := by simp
  report _ _ := (sameButErrors_report ..).imp (fun _ _ _ => by simp) (fun _ h => h) fun _ => trivial
  unmatched _ _ := (ends_dropBrace ..).imp (fun _ _ _ => by simp) (fun _ h => h) fun _ => trivial
  give_up _ _ := trivial
  passed_reported _ _ _ := by simp
  skip _ _ _ := by simp [synchronize, Outcome.Ends]
  number := number_or_breaks _ _
  trees_nil _ := by simp
  trees_append _ h h' := List.forall_mem_append.2 ⟨h, h'⟩
  raise {src p k s s'} h hk := by
    rw [Piece.nodes_raise]
    cases p with
    | tree | element | opened | trees => exact fun n hn => (h n hn).mono hk
    | ahead | passed | reported | skipped => exact fun n hn => by simp at hn
  gather h := h
  element h := h
  enclosed _ _ h _ := h
  open_passed _ _ := by simp
  open_tree _ h := h
  opened_append _ h h' := List.forall_mem_append.2 ⟨h, h'⟩
  make {src t form k l s s'} _ h hl := by
    refine List.forall_mem_singleton.2 ?_
    have hparts : ∀ c ∈ form.children, c.Within k :=
      fun c hc => h c (form.perm_written.mem_iff.2 hc)
    rcases hl with hlt | ⟨hkind, hle⟩
    · exact (Node.Within.part (n := s'.nextNode src t form) hparts).mono hlt
    · exact (Node.Within.definition (n := s'.nextNode src t form) hkind hparts).mono hle
  checked {src t ns k l s s'} _ h hl _ := by
    have hvector : Node.Within (k + 1) (s'.nextNode src t (.vector ns)) :=
      .part (by simpa [State.nextNode, Node.children, Node.form, Form.children, Form.fields,
        Field.children] using h)
    exact (sameButErrors_checkUniform ..).imp (fun _ _ _ => List.forall_mem_singleton.2
      (hvector.mono hl)) (fun _ h => h) fun _ => trivial
  missing _ _ := List.forall_mem_singleton.2 (.part fun c hc => by cases hc)

end Parse

/-- The height of a statement, whatever the tokens are. -/
theorem Parse.Produced.within {spelling : Spelling} {tokens : List Token} {origin : Option String}
    {p : Parsed} {s : State} (h : Produced spelling tokens origin p s) :
    ∀ n ∈ p.document.statements, n.Within (12 * maxNesting + 5) := by
  have hbuilds := builds_program (I := bounded) (source tokens origin) _
    (initial tokens origin) trivial rfl
  rw [h.run] at hbuilds
  obtain ⟨_, hwithin, rfl⟩ := hbuilds
  exact hwithin

/-- However long a text is and however deep it nests, a way down from one of its statements has few
nodes. Only module definitions may be one in the other to any depth. -/
theorem parse_bounds_height {tokens : List Token} {origin : Option String} {p : Parse.Parsed}
    (h : parse tokens origin = .ok p) {n : Node} (hn : n ∈ p.document.statements)
    {below : List Node} (hway : (n :: below).IsChain fun m c => c ∈ m.children) :
    (n :: below).countP (·.kind ≠ .moduleDefinition) ≤ 600 := by
  obtain ⟨s, hs⟩ := Parse.produced_of_ok h
  calc (n :: below).countP (·.kind ≠ .moduleDefinition)
      ≤ 12 * Parse.maxNesting + 5 := (hs.within n hn).way hway
    _ ≤ 600 := by decide

/-- The way down a tree that goes to the last part each time. -/
def Node.spine (n : Node) : List Node := n.fold fun m below => m :: below.children.getLast?.getD []

theorem Node.spine_eq (n : Node) : n.spine = n :: (n.children.getLast?.map spine).getD [] := by
  obtain ⟨info, form⟩ := n
  rw [spine, fold_mk, Form.children_map, List.getLast?_map]
  rfl

theorem Node.isChain_spine (n : Node) : n.spine.IsChain fun m c => c ∈ m.children := by
  induction n using ofChildren with
  | h n ih =>
      rw [spine_eq]
      cases hlast : n.children.getLast? with
      | none => exact .singleton n
      | some c =>
          have hc := List.mem_of_getLast? hlast
          have hrest := ih c hc
          rw [Option.map_some, Option.getD_some, spine_eq]
          rw [spine_eq] at hrest
          exact .cons_cons hc hrest

/-- Module definitions around as many vectors as may be one in the other. -/
theorem parse_bounds_height_deep : ∃ p n below, parse (tokenize
    "module a() module b() x = [[[[[[[[[[[[[[[[[[[[[[[[[[[[[[[[[[[[[[[1]]]]]]]]]]]]]]]]]]]]]]]]]]]]]]]]]]]]]]];"
      "").tokens none = .ok p ∧ n ∈ p.document.statements ∧
    (n :: below).IsChain (fun m c => c ∈ m.children) ∧ (n :: below).length = 43 ∧
    (n :: below).countP (·.kind ≠ .moduleDefinition) ≤ 600 := by
  have hrun : (parse (tokenize
      "module a() module b() x = [[[[[[[[[[[[[[[[[[[[[[[[[[[[[[[[[[[[[[[1]]]]]]]]]]]]]]]]]]]]]]]]]]]]]]]]]]]]]]];"
        "").tokens none).toOption.map (fun p => p.document.statements.map fun n => n.spine.length) =
        some [43] := by
    rw [tokens_ofList]
    decide +kernel
  obtain ⟨p, hp, hlengths⟩ := Parse.exists_of_map hrun
  obtain ⟨n, hstatements, hlength⟩ := List.map_eq_singleton_iff.1 hlengths
  have hn : n ∈ p.document.statements := hstatements ▸ List.mem_singleton_self n
  have hway := n.isChain_spine
  rw [Node.spine_eq] at hway hlength
  exact ⟨p, n, _, hp, hn, hway, hlength, parse_bounds_height hp hn hway⟩

end Scad
