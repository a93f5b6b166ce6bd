import Scad.Proofs.Parse.Braces
import Scad.Proofs.Parse.Outcome
import Scad.Proofs.Parse.Reading
import Scad.Proofs.Tree.Shape

/-! What a production may do to the state, whatever the tokens are: which tokens it consumes, which
nodes it makes, and that it leaves every level that it opens. -/
namespace Scad.Parse

open Grammar (nextKind)

variable {α β : Type}

/-- A later state at the same level, with the braces in between settled. Only where the tokens end
may opening braces be left. -/
structure Moves (s s' : State) : Prop where
  depth : s'.depth = s.depth
  made : s.made.toList <+: s'.made.toList
  braces : ∃ ts es left, s.rest = ts ++ s'.rest ∧ s'.position = s.position + ts.length ∧
    s'.notes = s.notes ++ es ∧ Account s.position ts es left ∧ (left = [] ∨ s'.rest = [])

namespace Moves

variable {s s' s'' : State}

theorem refl (s : State) : Moves s s :=
  ⟨rfl, List.prefix_refl _, [], [], [], rfl, rfl, (List.append_nil _).symm, .nil _, .inl rfl⟩

theorem suffix (h : Moves s s') : s'.rest <:+ s.rest := by
  obtain ⟨ts, -, -, h, -⟩ := h.braces
  exact ⟨ts, h.symm⟩

theorem trans (h : Moves s s') (h' : Moves s' s'') : Moves s s'' := by
  obtain ⟨ts, es, left, hts, hp, hn, ha, hend⟩ := h.braces
  obtain ⟨us, fs, more, hus, hp', hn', ha', hend'⟩ := h'.braces
  refine ⟨h'.depth.trans h.depth, h.made.trans h'.made, ts ++ us, es ++ fs,
    more ++ left, ?_, ?_, ?_, ha.append (hp ▸ ha'), ?_⟩
  · rw [hts, hus, List.append_assoc]
  · rw [hp', hp, List.length_append, Nat.add_assoc]
  · rw [hn', hn, List.append_assoc]
  · rcases hend' with rfl | hend'
    · rcases hend with rfl | hend
      · exact .inl rfl
      · refine .inr (List.suffix_nil.1 ?_)
        rw [← hend]
        exact h'.suffix
    · exact .inr hend'

/-- A step that consumes nothing and leaves a note about no brace. -/
theorem still (hr : s'.rest = s.rest) (hp : s'.position = s.position) (hd : s'.depth = s.depth)
    (hn : s'.notes = s.notes) (hm : s.made.toList <+: s'.made.toList) : Moves s s' :=
  ⟨hd, hm, [], [], [], hr.symm, hp, by rw [hn, List.append_nil], .nil _, .inl rfl⟩

/-- Consuming a token that is no brace. -/
theorem take {t : Token} {rest : List Token} (hr : s.rest = t :: rest) (ht : t.isBrace = false) :
    Moves s (s.behind t rest) :=
  ⟨rfl, List.prefix_refl _, [t], [], [], hr, rfl, (List.append_nil _).symm, .token ht, .inl rfl⟩

end Moves

theorem SameButErrors.moves {s s' : State} (h : SameButErrors s s') : Moves s s' :=
  .still h.rest h.position h.depth h.notes (h.made ▸ List.prefix_refl _)

/-- The frame of the work: the source, all the nodes that there will be when it is done, and what is
known of the tokens. -/
structure Setting where
  src : Source
  nodes : List Node
  spelling : Spelling
  token : Token → Prop
  /-- Whether a number may fail to be read. -/
  breaks : Prop
  stop : src.stop.kind = .eof
  running : ∀ {t}, token t → t.kind ≠ .eof
  operator : ∀ {t level}, token t → isOperator level t.kind → spelling.operator level t.text
  head : ∀ {t}, token t → Grammar.namesModule t.kind → spelling.head t.text (declaresVariables t)
  numeral : ∀ {t}, token t → t.kind = .number → (∃ x, Numeral.read t.text = .ok x) ∨ breaks

/-- Nodes are numbered in the order in which they were made, have the right shape, and their
children are among the nodes that there are. -/
structure NodesWellFormed (σ : Setting) (s : State) : Prop where
  numbered : ∀ (i : Nat) (n : Node), s.made.toList[i]? = some n → n.id = i
  shaped : ∀ n ∈ s.made.toList, n.form.Shaped σ.spelling
  closed : ∀ n ∈ s.made.toList, ∀ c ∈ n.children, c ∈ σ.nodes

theorem NodesWellFormed.of_made {σ : Setting} {s s' : State} (h : NodesWellFormed σ s)
    (hm : s'.made = s.made) :
    NodesWellFormed σ s' :=
  ⟨hm ▸ h.numbered, hm ▸ h.shaped, hm ▸ h.closed⟩

/-- What may be said of a later state, if `H` holds and its nodes are among those that
there will be. -/
def Leads (σ : Setting) (H Q : Prop) (s s' : State) : Prop :=
  Moves s s' ∧ (s'.made.toList <+: σ.nodes → H → NodesWellFormed σ s → NodesWellFormed σ s' ∧ Q)

namespace Leads

variable {σ : Setting} {H P Q : Prop} {s s' s'' : State}

theorem trans (h : Leads σ H P s s') (h' : Leads σ (H ∧ P) Q s' s'') : Leads σ H Q s s'' := by
  refine ⟨h.1.trans h'.1, fun hn hH hs => ?_⟩
  obtain ⟨hs', hP⟩ := h.2 (h'.1.made.trans hn) hH hs
  exact h'.2 hn ⟨hH, hP⟩ hs'

theorem of_moves (h : Moves s s') (hm : s'.made = s.made) (hQ : H → Q) : Leads σ H Q s s' :=
  ⟨h, fun _ hH hs => ⟨hs.of_made hm, hQ hH⟩⟩

theorem refl (hQ : H → Q) : Leads σ H Q s s := of_moves (.refl s) rfl hQ

theorem weaken (h : Leads σ H P s s') (hQ : H → P → Q) : Leads σ H Q s s' :=
  ⟨h.1, fun hn hH hs => ⟨(h.2 hn hH hs).1, hQ hH (h.2 hn hH hs).2⟩⟩

theorem assuming {H' : Prop} (h : Leads σ H Q s s') (hH : H' → H) : Leads σ H' Q s s' :=
  ⟨h.1, fun hn hH' hs => h.2 hn (hH hH') hs⟩

end Leads

def Setting.Has (σ : Setting) (K : Node → Prop) (n : Node) : Prop := n ∈ σ.nodes ∧ K n

def Setting.Keeps (σ : Setting) (K : Kind → Prop) (n : Node) : Prop := n ∈ σ.nodes ∧ K n.kind

/-- Started at tokens with `pre`, a production leads on; if `H` holds, its value has `Q`. -/
def Guarantees (σ : Setting) (pre : List Token → Prop) (H : Prop) (p : Parser α) (Q : α → Prop) :
    Prop :=
  ∀ s, (∀ t ∈ s.rest, σ.token t) → pre s.rest → (p σ.src s).Ends
    (fun a s' => Leads σ H (Q a) s s') (Leads σ H True s) σ.breaks

theorem Leads.tokens {σ : Setting} {H Q : Prop} {s s' : State} (h : Leads σ H Q s s')
    (ht : ∀ t ∈ s.rest, σ.token t) : ∀ t ∈ s'.rest, σ.token t :=
  fun t hm => ht t (h.1.suffix.mem hm)

theorem Moves.shorter {s s' : State} (h : Moves s s') (hp : s'.position ≠ s.position) :
    s'.rest.length < s.rest.length := by
  obtain ⟨ts, -, -, hts, hpos, -⟩ := h.braces
  rw [hts, List.length_append]
  omega

def anywhere (_ : List Token) : Prop := True

namespace Guarantees

variable {σ : Setting} {pre pre' : List Token → Prop} {H H' : Prop} {P Q : α → Prop} {R : β → Prop}

theorem mono {p : Parser α} (h : Guarantees σ pre H p P) (hQ : ∀ a, H → P a → Q a) :
    Guarantees σ pre H p Q :=
  fun s ht hp => (h s ht hp).mono (fun a _ h => h.weaken (hQ a)) fun _ h => h

theorem pure {a : α} (hQ : H → Q a) : Guarantees σ pre H (Pure.pure a) Q := fun _ _ _ => .refl hQ

theorem bind {p : Parser α} {f : α → Parser β} (hp : Guarantees σ pre H p P)
    (hf : ∀ a, Guarantees σ anywhere (H ∧ P a) (f a) R) : Guarantees σ pre H (p >>= f) R := by
  intro s ht hpre
  refine (hp s ht hpre).bind ?_ fun _ h => h
  intro a s' h
  exact (hf a s' (h.tokens ht) trivial).mono (fun _ _ h' => h.trans h') fun _ h' => h.trans h'

/-- A step that consumes nothing, and what is done behind it at the same tokens. -/
theorem staying {p : Parser α} {f : α → Parser β} (hp : Guarantees σ pre H p P)
    (hstay : ∀ s, (p σ.src s).Ends (fun _ s' => s'.rest = s.rest) (fun _ => True) True)
    (hf : ∀ a, Guarantees σ pre (H ∧ P a) (f a) R) : Guarantees σ pre H (p >>= f) R := by
  intro s ht hpre
  refine ((hp s ht hpre).and (hstay s)).bind ?_ fun _ h => h.1
  rintro a s' ⟨h, hr⟩
  exact (hf a s' (h.tokens ht) (hr ▸ hpre)).mono (fun _ _ h' => h.trans h') fun _ h' => h.trans h'

/-- Looking at the next token. -/
theorem look {f : Token → Parser α}
    (h : ∀ t, Guarantees σ (fun ts => pre ts ∧ ahead σ.src ts = t) H (f t) Q) :
    Guarantees σ pre H (current >>= f) Q := fun s ht hp => h _ s ht ⟨hp, rfl⟩

theorem peek {f : Token → Parser α}
    (h : ∀ t, Guarantees σ (fun ts => pre ts ∧ ahead σ.src ts.tail = t) H (f t) Q) :
    Guarantees σ pre H (Parse.peek >>= f) Q := fun s ht hp => h _ s ht ⟨hp, rfl⟩

theorem starting {p : Parser α} (h : Guarantees σ pre' H p Q) (hp : ∀ ts, pre ts → pre' ts) :
    Guarantees σ pre H p Q :=
  fun s ht hpre => h s ht (hp _ hpre)

/-- What the tokens at the start say is known. -/
theorem knowing {p : Parser α} {F : Prop} (hp : ∀ ts, pre ts → F) (h : F → Guarantees σ pre H p Q) :
    Guarantees σ pre H p Q := fun s ht hpre => h (hp _ hpre) s ht hpre

theorem nextKind_eq (σ : Setting) {ts : List Token} {t : Token} (h : ahead σ.src ts = t) :
    nextKind ts = t.kind := by
  rw [← h]
  cases ts with
  | nil => exact σ.stop.symm
  | cons t ts => rfl

theorem test {k : TokenKind} {p q : Parser α}
    (hp : Guarantees σ (fun ts => pre ts ∧ nextKind ts = k) H p Q) (hq : Guarantees σ pre H q Q) :
    Guarantees σ pre H (atKind k >>= fun b => if b = true then p else q) Q := by
  intro s ht hs
  have hk := nextKind_eq σ (rfl : ahead σ.src s.rest = _)
  show Outcome.Ends _ _ _ ((if decide ((ahead σ.src s.rest).kind = k) = true then p else q) σ.src s)
  rw [← hk]
  by_cases hn : nextKind s.rest = k
  · rw [if_pos (decide_eq_true hn)]
    exact hp s ht ⟨hs, hn⟩
  · rw [if_neg (by simp [hn])]
    exact hq s ht hs

end Guarantees

/-- A kind of token that no block begins or ends with, nor the text. -/
def Plain (k : TokenKind) : Prop :=
  k ≠ .eof ∧ k ≠ .symbol .leftBrace ∧ k ≠ .symbol .rightBrace

instance (k : TokenKind) : Decidable (Plain k) := inferInstanceAs (Decidable (_ ∧ _ ∧ _))

theorem Plain.isBrace {t : Token} (h : Plain t.kind) : t.isBrace = false := by
  simp [Token.isBrace, h.2.1, h.2.2]

theorem plain_ahead {σ : Setting} {ts : List Token} {t : Token} {k : TokenKind}
    (h : ahead σ.src ts = t) (ht : t.kind = k) (hk : Plain k) : Plain (nextKind ts) := by
  rw [Guarantees.nextKind_eq σ h, ht]
  exact hk

namespace Guarantees

variable {σ : Setting} {pre : List Token → Prop} {H : Prop} {P Q : α → Prop}

/-- Consuming a token that is there, and is no brace. -/
theorem take {f : Token → Parser α} (hpre : ∀ ts, pre ts → Plain (nextKind ts))
    (h : ∀ t, Guarantees σ (fun rest => pre (t :: rest) ∧ σ.token t) H (f t) Q) :
    Guarantees σ pre H (advance >>= f) Q := by
  intro s ht hp
  have hk := hpre _ hp
  cases hr : s.rest with
  | nil =>
      rw [hr] at hk
      exact absurd rfl hk.1
  | cons t rest =>
      have he : (advance >>= f) σ.src s = f t σ.src (s.behind t rest) := by
        show Parser.bind advance f σ.src s = _
        unfold Parser.bind advance
        rw [hr]
        rfl
      rw [hr] at hk ht hp
      rw [he]
      have hm : Leads σ H H s (s.behind t rest) := .of_moves (.take hr (Plain.isBrace hk)) rfl id
      have hf := h t (s.behind t rest) (fun u hu => ht u (List.mem_cons_of_mem _ hu))
        ⟨hp, ht t (List.mem_cons_self ..)⟩
      exact hf.mono (fun a s' h' => hm.trans (h'.assuming And.left)) fun s' h' =>
        hm.trans (h'.assuming And.left)

theorem report (message : String) (span : Span) :
    Guarantees σ pre H (report message span) fun _ => True := by
  intro s _ _
  exact (sameButErrors_report message span σ.src s).imp
    (fun _ _ h => .of_moves h.moves h.made fun _ => trivial) (fun _ h => h.elim) False.elim

theorem abandon : Guarantees σ pre H (abandon : Parser α) Q := fun _ _ _ => .refl fun _ => trivial

theorem fail (message : String) : Guarantees σ pre H (fail message : Parser α) Q :=
  look fun _ => (report _ _).bind fun _ => abandon

theorem expect {k : TokenKind} (hk : Plain k) :
    Guarantees σ pre H (expect k) fun o => ∀ t ∈ o, σ.token t ∧ t.kind = k := by
  refine look fun t => ?_
  by_cases ht : t.kind = k
  · rw [if_pos ht]
    refine take (fun ts h => ?_) fun u => ?_
    · rw [nextKind_eq σ h.2, ht]
      exact hk
    · refine fun s _ hs => .refl fun _ v hv => ?_
      cases hv
      exact ⟨hs.2, (nextKind_eq σ hs.1.2).trans ht⟩
  · rw [if_neg ht]
    refine (report _ _).bind fun _ => pure fun _ v hv => ?_
    cases hv

theorem expectSymbol {sign : Symbol} (hk : Plain (.symbol sign)) :
    Guarantees σ pre H (expectSymbol sign) fun _ => True :=
  (expect hk).bind fun _ => pure fun _ => trivial

theorem identifier : Guarantees σ pre H identifier fun _ => True := by
  refine (expect (by decide)).bind fun o => ?_
  cases o with
  | some t => exact pure fun _ => trivial
  | none => exact pure fun _ => trivial

/-- A new node gets the next number. -/
theorem make {start : Token} {form : Form Node} (hs : H → form.Shaped σ.spelling)
    (hc : H → ∀ c ∈ form.children, c ∈ σ.nodes) :
    Guarantees σ pre H (make start form) (σ.Has fun n => n.form = form) := by
  intro s _ _
  refine ⟨.still rfl rfl rfl rfl (by simp), fun hn hH hst => ⟨⟨?_, ?_, ?_⟩, ?_, rfl⟩⟩
  · intro i n hi
    simp only [Array.toList_push] at hi
    rcases Nat.lt_trichotomy i s.made.toList.length with hlt | rfl | hgt
    · rw [List.getElem?_append_left hlt] at hi
      exact hst.numbered i n hi
    · rw [List.getElem?_concat_length] at hi
      cases hi
      rfl
    · rw [List.getElem?_eq_none (by simpa using Nat.succ_le_of_lt hgt)] at hi
      cases hi
  · intro n hm
    rw [Array.toList_push, List.mem_append, List.mem_singleton] at hm
    rcases hm with hm | rfl
    · exact hst.shaped n hm
    · exact hs hH
  · intro n hm
    rw [Array.toList_push, List.mem_append, List.mem_singleton] at hm
    rcases hm with hm | rfl
    · exact hst.closed n hm
    · exact hc hH
  · refine hn.subset ?_
    rw [Array.toList_push]
    exact List.mem_append_right _ (List.mem_singleton_self _)

/-- A node of a known form, and what is done with it at the same tokens. -/
theorem making {start : Token} {form : Form Node} {f : Node → Parser α}
    (h : H → form.Shaped σ.spelling ∧ ∀ c ∈ form.children, c ∈ σ.nodes)
    (hf : ∀ n, Guarantees σ pre (H ∧ σ.Has (fun m => m.form = form) n) (f n) Q) :
    Guarantees σ pre H (Parse.make start form >>= f) Q :=
  (make (fun hH => (h hH).1) fun hH => (h hH).2).staying (fun _ => rfl) hf

/-- An error, and what is done behind it at the same tokens. -/
theorem reporting {message : String} {span : Span} {f : Unit → Parser α}
    (hf : ∀ u, Guarantees σ pre (H ∧ True) (f u) Q) :
    Guarantees σ pre H (Parse.report message span >>= f) Q := by
  refine (report _ _).staying (fun s => ?_) hf
  exact (sameButErrors_report _ _ σ.src s).imp (fun _ _ h => h.rest) (fun _ h => h.elim) False.elim

/-- A new node as the result of a production. -/
theorem kept {K : Kind → Prop} {start : Token} {form : Form Node} (hk : K form.kind)
    (h : H → form.Shaped σ.spelling ∧ ∀ c ∈ form.children, c ∈ σ.nodes) :
    Guarantees σ pre H (Parse.make start form) (σ.Keeps K) := by
  refine (make (fun hH => (h hH).1) fun hH => (h hH).2).mono fun n _ hn => ⟨hn.1, ?_⟩
  rw [Node.kind, hn.2]
  exact hk

/-- A value that is given. -/
theorem giving {p : Parser α} (h : Guarantees σ pre H p P) :
    Guarantees σ pre H (return some (← p)) fun o => ∀ a ∈ o, P a := by
  refine h.bind fun a => pure fun hH b hb => ?_
  cases hb
  exact hH.2

/-- No value is given. -/
theorem none : Guarantees σ pre H (Pure.pure (none : Option α)) fun o => ∀ a ∈ o, P a :=
  pure fun _ a ha => absurd ha (Option.not_mem_none a)

theorem iterate {step : Parser (Option α)} (h : Guarantees σ anywhere H step fun o => ∀ a ∈ o, P a)
    (fuel : List Token) :
    Guarantees σ anywhere H (Parser.iterate step fuel) fun as => ∀ a ∈ as, P a := by
  induction fuel with
  | nil =>
      refine h.bind fun o => pure fun hH a ha => ?_
      exact hH.2 a (by simpa using ha)
  | cons t fuel ih =>
      refine h.bind fun o => ?_
      cases o with
      | none => exact pure fun _ a ha => absurd ha List.not_mem_nil
      | some b =>
          have hrest : Guarantees σ anywhere (H ∧ ∀ a ∈ some b, P a) (Parser.iterate step fuel)
              fun as => ∀ a ∈ as, P a := fun s ht hp =>
            (ih s ht hp).mono (fun _ _ h => h.assuming And.left) fun _ h => h.assuming And.left
          refine hrest.bind fun as => pure fun hH a ha => ?_
          rcases List.mem_cons.1 ha with rfl | ha
          · exact hH.1.2 a rfl
          · exact hH.2 a ha

theorem many {step : Parser (Option α)} (h : Guarantees σ anywhere H step fun o => ∀ a ∈ o, P a) :
    Guarantees σ pre H (Parser.many step) fun as => ∀ a ∈ as, P a :=
  fun s ht _ => iterate h s.rest s ht trivial

end Guarantees

section Nesting

variable {σ : Setting} {pre : List Token → Prop} {H P : Prop} {Q : α → Prop}

/-- A level that was opened is left again. -/
theorem Leads.leave {s s' : State} (h : Leads σ H P { s with depth := s.depth + 1 } s') :
    Leads σ H P s { s' with depth := s'.depth - 1 } := by
  obtain ⟨hm, hl⟩ := h
  refine ⟨⟨?_, hm.made, hm.braces⟩, fun hn hH hs => ?_⟩
  · show s'.depth - 1 = s.depth
    rw [hm.depth, Nat.add_sub_cancel]
  · obtain ⟨hs', hP⟩ := hl hn hH (hs.of_made rfl)
    exact ⟨hs'.of_made rfl, hP⟩

theorem Guarantees.nested {p : Parser α} (h : Guarantees σ pre H p Q) :
    Guarantees σ pre H (nested p) Q :=
  fun s ht hp => ends_nested ((h { s with depth := s.depth + 1 } ht hp).mono (fun _ _ h => h.leave)
    fun _ h => h.leave) (Guarantees.fail _ s ht hp)

end Nesting

end Scad.Parse
