import Scad.Parse.Statement

/-! How productions end, one after the other. -/
namespace Scad.Parse

variable {α β : Type}

theorem Parser.bind_assoc {γ : Type} (p : Parser α) (f : α → Parser β) (g : β → Parser γ) :
    p >>= f >>= g = p >>= fun a => f a >>= g := by
  funext src s
  show Parser.bind (Parser.bind p f) g src s = Parser.bind p (fun a => Parser.bind (f a) g) src s
  unfold Parser.bind
  cases p src s <;> rfl

/-- A value and state with `D`, an abandoned statement with `A`, or a number that cannot be read if
`B` allows it. -/
def Outcome.Ends (D : α → State → Prop) (A : State → Prop) (B : Prop) : Outcome α → Prop
  | .done a s => D a s
  | .abandoned s => A s
  | .broken _ => B

namespace Outcome.Ends

variable {D D' : α → State → Prop} {E : β → State → Prop} {A A' : State → Prop} {B : Prop}

theorem imp {o : Outcome α} {B' : Prop} (h : o.Ends D A B) (hD : ∀ a s, D a s → D' a s)
    (hA : ∀ s, A s → A' s) (hB : B → B') : o.Ends D' A' B' := by
  cases o with
  | done a s => exact hD a s h
  | abandoned s => exact hA s h
  | broken fault => exact hB h

theorem mono {o : Outcome α} (h : o.Ends D A B) (hD : ∀ a s, D a s → D' a s)
    (hA : ∀ s, A s → A' s) : o.Ends D' A' B := h.imp hD hA id

theorem and {o : Outcome α} {B' : Prop} (h : o.Ends D A B) (h' : o.Ends D' A' B') :
    o.Ends (fun a s => D a s ∧ D' a s) (fun s => A s ∧ A' s) B := by
  cases o with
  | done a s => exact ⟨h, h'⟩
  | abandoned s => exact ⟨h, h'⟩
  | broken fault => exact h

theorem bind {p : Parser α} {f : α → Parser β} {src : Source} {s : State}
    (hp : (p src s).Ends D A B) (hf : ∀ a s', D a s' → (f a src s').Ends E A' B)
    (hA : ∀ s', A s' → A' s') : ((p >>= f) src s).Ends E A' B := by
  show (Parser.bind p f src s).Ends E A' B
  unfold Parser.bind
  cases he : p src s with
  | done a s' =>
      rw [he] at hp
      exact hf a s' hp
  | abandoned s' =>
      rw [he] at hp
      exact hA s' hp
  | broken fault =>
      rw [he] at hp
      exact hp

/-- A loop whose passes consume something ends with a pass that gives nothing. -/
theorem iterate {step : Parser (Option α)} {src : Source} {I E : List α → State → Prop}
    (hstep : ∀ as s, I as s → (step src s).Ends
      (fun o s' => match o with
        | none => E as s'
        | some a => I (as ++ [a]) s' ∧ s'.rest.length < s.rest.length) (fun _ => False) B)
    (fuel : List Token) (as : List α) (s : State) (hfuel : s.rest.length ≤ fuel.length)
      (hs : I as s) :
    (Parser.iterate step fuel src s).Ends (fun found s' => E (as ++ found) s')
      (fun _ => False) B := by
  induction fuel generalizing as s with
  | nil =>
      refine (hstep as s hs).bind (fun o s' ho => ?_) fun _ h => h
      cases o with
      | none =>
          show E (as ++ []) s'
          rw [List.append_nil]
          exact ho
      | some a => exact absurd (Nat.lt_of_lt_of_le ho.2 hfuel) (Nat.not_lt_zero _)
  | cons t fuel ih =>
      refine (hstep as s hs).bind (fun o s' ho => ?_) fun _ h => h
      cases o with
      | none =>
          show E (as ++ []) s'
          rw [List.append_nil]
          exact ho
      | some a =>
          have hle : s'.rest.length ≤ fuel.length := by
            have := ho.2
            rw [List.length_cons] at hfuel
            omega
          refine (ih (as ++ [a]) s' hle ho.1).bind (fun found s'' h => ?_) fun _ h => h
          show E (as ++ a :: found) s''
          rw [List.append_cons]
          exact h

theorem many {step : Parser (Option α)} {src : Source} {I E : List α → State → Prop}
    (hstep : ∀ as s, I as s → (step src s).Ends
      (fun o s' => match o with
        | none => E as s'
        | some a => I (as ++ [a]) s' ∧ s'.rest.length < s.rest.length) (fun _ => False) B)
    (s : State) (hs : I [] s) : (Parser.many step src s).Ends E (fun _ => False) B :=
  iterate hstep s.rest [] s (Nat.le_refl _) hs

end Outcome.Ends

theorem ends_nested {D : α → State → Prop} {A : State → Prop} {B : Prop} {src : Source} {s : State}
    {p : Parser α} (hp : (p src { s with depth := s.depth + 1 }).Ends
      (fun a s' => D a { s' with depth := s'.depth - 1 })
      (fun s' => A { s' with depth := s'.depth - 1 }) B)
    (hdeep : (tooDeep src s : Outcome α).Ends D A B) : (nested p src s).Ends D A B := by
  unfold nested
  split
  · exact hdeep
  · cases ho : p src { s with depth := s.depth + 1 } with
    | done a s' | abandoned s' | broken fault =>
        rw [ho] at hp
        exact hp

def State.behind (s : State) (t : Token) (rest : List Token) : State :=
  { s with rest, position := s.position + 1, previous := t }

/-- The events that are not errors. -/
def State.notes (s : State) : List Event := s.events.toList.filter (·.error?.isNone)

structure SameButErrors (s s' : State) : Prop where
  rest : s'.rest = s.rest
  previous : s'.previous = s.previous
  position : s'.position = s.position
  depth : s'.depth = s.depth
  made : s'.made = s.made
  notes : s'.notes = s.notes

theorem sameButErrors_report (message : String) (span : Span) (src : Source) (s : State) :
    (report message span src s).Ends (fun _ s' => SameButErrors s s') (fun _ => False) False := by
  unfold report
  split
  · exact ⟨rfl, rfl, rfl, rfl, rfl, rfl⟩
  · refine ⟨rfl, rfl, rfl, rfl, rfl, ?_⟩
    simp [State.notes, Event.error?]

theorem sameButErrors_checkUniform (elements : List Node) (src : Source) (s : State) :
    (checkUniform elements src s).Ends (fun _ s' => SameButErrors s s') (fun _ => False) False := by
  have hreport : checkUniform elements = pure () ∨ ∃ message span,
      checkUniform elements = report message span := by
    unfold checkUniform
    split
    · exact .inl rfl
    · split
      · exact .inl rfl
      · exact .inr ⟨_, _, rfl⟩
  rcases hreport with h | ⟨message, span, h⟩
  · rw [h]
    exact ⟨rfl, rfl, rfl, rfl, rfl, rfl⟩
  · rw [h]
    exact sameButErrors_report message span src s

theorem exists_of_isOk {ε α : Type} {x : Except ε α} (h : x.isOk) : ∃ a, x = .ok a := by
  cases x with
  | error e => cases h
  | ok a => exact ⟨a, rfl⟩

/-- What was computed from an outcome was computed from its value. -/
theorem exists_of_map {ε α β : Type} {x : Except ε α} {f : α → β} {b : β}
    (h : x.toOption.map f = some b) :
    ∃ a, x = .ok a ∧ f a = b := by
  cases x with
  | error e => cases h
  | ok a => exact ⟨a, rfl, Option.some.inj h⟩

end Scad.Parse
