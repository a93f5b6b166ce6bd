import Scad.Proofs.Parse.Reading

/-! Runs that report nothing: from given tokens a production gets to given tokens behind them, with
a value of a certain sort. -/
namespace Scad.Parse

open Grammar (nextKind)

variable {α β : Type}

/-- Started at `ts` with room for `n` more levels, a production stops at `rest` with a value in `Q`
and no error on the way. -/
def Runs (src : Source) (n : Nat) (p : Parser α) (ts rest : List Token) (Q : α → Prop) : Prop :=
  src.stop.kind = .eof → ∀ s, s.rest = ts → s.depth + n = maxNesting → (p src s).Ends
    (fun a s' => s'.rest = rest ∧ s'.depth = s.depth ∧ s'.errors = s.errors ∧ Q a)
    (fun _ => False) False

theorem ahead_kind {src : Source} (h : src.stop.kind = .eof) (ts : List Token) :
    (ahead src ts).kind = nextKind ts := by
  cases ts with
  | nil => exact h
  | cons t ts => rfl

/-- The turns of a loop up to the one that gives nothing, with what `view` shows of the values that
the others give. -/
inductive Turns (src : Source) (n : Nat) (step : Parser (Option α)) (view : α → β) :
    List Token → List β → List Token → Prop
  | stop {ts rest} : Runs src n step ts rest (· = none) → Turns src n step view ts [] rest
  | turn {ts b mid bs rest} : Runs src n step ts mid (fun o => ∃ a, o = some a ∧ view a = b) →
      mid.length < ts.length → Turns src n step view mid bs rest →
      Turns src n step view ts (b :: bs) rest

namespace Runs

variable {src : Source} {n : Nat} {ts mid rest : List Token} {P : α → Prop} {Q : β → Prop}

theorem mono {P' : α → Prop} {p : Parser α} (h : Runs src n p ts rest P) (hP : ∀ a, P a → P' a) :
    Runs src n p ts rest P' :=
  fun he s hs hn => (h he s hs hn).mono (fun a _ h => ⟨h.1, h.2.1, h.2.2.1, hP a h.2.2.2⟩)
    fun _ h => h

theorem pure (a : α) : Runs src n (Pure.pure a) ts ts (· = a) := fun _ _ hs _ => ⟨hs, rfl, rfl, rfl⟩

theorem bind {p : Parser α} {f : α → Parser β} (hp : Runs src n p ts mid P)
    (hf : ∀ a, P a → Runs src n (f a) mid rest Q) : Runs src n (p >>= f) ts rest Q := by
  intro he s hs hn
  refine (hp he s hs hn).bind ?_ fun _ h => h
  rintro a s' ⟨hm, hd, hs', ha⟩
  refine (hf a ha he s' hm (hd ▸ hn)).mono ?_ fun _ h => h
  rintro b s'' ⟨hr, hd', hs'', hb⟩
  exact ⟨hr, hd'.trans hd, hs''.trans hs', hb⟩

theorem look {f : Token → Parser α}
    (h : src.stop.kind = .eof → Runs src n (f (ahead src ts)) ts rest P) :
    Runs src n (current >>= f) ts rest P := by
  intro he s hs hn
  have hf := h he he s hs hn
  rw [← hs] at hf
  exact hf

/-- Looking at the first of some tokens. -/
theorem see {t : Token} {f : Token → Parser α} (h : Runs src n (f t) (t :: ts) rest P) :
    Runs src n (current >>= f) (t :: ts) rest P := look fun _ => h

theorem peek {f : Token → Parser α}
    (h : src.stop.kind = .eof → Runs src n (f (ahead src ts.tail)) ts rest P) :
    Runs src n (Parse.peek >>= f) ts rest P := by
  intro he s hs hn
  have hf := h he he s hs hn
  rw [← hs] at hf
  exact hf

theorem take {t : Token} {f : Token → Parser α} (h : Runs src n (f t) ts rest P) :
    Runs src n (advance >>= f) (t :: ts) rest P := by
  intro he s hs hn
  have he' : (advance >>= f) src s =
      f t src { s with rest := ts, position := s.position + 1, previous := t } := by
    show Parser.bind advance f src s = _
    unfold Parser.bind advance
    rw [hs]
  rw [he']
  exact h he _ rfl hn

theorem yes {k : TokenKind} {p q : Parser α} (hk : nextKind ts = k) (h : Runs src n p ts rest P) :
    Runs src n (atKind k >>= fun b => if b = true then p else q) ts rest P := by
  refine bind (P := (· = true)) (look fun he => (pure _).mono ?_) ?_
  · rintro a rfl
    rw [ahead_kind he]
    exact decide_eq_true hk
  · rintro _ rfl
    exact h

theorem no {k : TokenKind} {p q : Parser α} (hk : nextKind ts ≠ k) (h : Runs src n q ts rest P) :
    Runs src n (atKind k >>= fun b => if b = true then p else q) ts rest P := by
  refine bind (P := (· = false)) (look fun he => (pure _).mono ?_) ?_
  · rintro a rfl
    rw [ahead_kind he]
    exact decide_eq_false hk
  · rintro _ rfl
    exact h

theorem expect {t : Token} {k : TokenKind} (hk : t.kind = k) :
    Runs src n (expect k) (t :: ts) ts (· = some t) := by
  refine see ?_
  rw [if_pos hk]
  exact take (pure _)

theorem expectSymbol {t : Token} {sign : Symbol} {p : Parser α} (hk : t.kind = .symbol sign)
    (h : Runs src n p ts rest P) :
    Runs src n (Parse.expectSymbol sign >>= fun _ => p) (t :: ts) rest P :=
  bind (bind (expect hk) fun _ _ => (pure ()).mono fun _ _ => trivial) fun _ _ => h

theorem identifier {t : Token} (hk : t.kind = .identifier) :
    Runs src n identifier (t :: ts) ts (· = t.text) := by
  refine bind (expect hk) ?_
  rintro _ rfl
  exact pure _

theorem make (start : Token) (form : Form Node) :
    Runs src n (make start form) ts ts fun x => x.form = form := fun _ _ hs _ => ⟨hs, rfl, rfl, rfl⟩

theorem place {f : Nat → Parser α} (h : ∀ i, Runs src n (f i) ts rest P) :
    Runs src n (Parse.place >>= f) ts rest P := fun he s hs hn => h s.position he s hs hn

theorem note {e : Event} (h : e.error? = none) : Runs src n (note e) ts ts fun _ => True := by
  intro he s hs hn
  refine ⟨hs, rfl, ?_, trivial⟩
  simp [State.errors, h]

theorem nested {p : Parser α} (h : Runs src n p ts rest P) :
    Runs src (n + 1) (nested p) ts rest P := by
  intro he s hs hn
  unfold Parse.nested
  rw [if_neg (by omega)]
  have hp := h he { s with depth := s.depth + 1 } hs (by simp only; omega)
  cases ho : p src { s with depth := s.depth + 1 } with
  | done a s' =>
      rw [ho] at hp
      obtain ⟨hr, hd, hs', ha⟩ := hp
      exact ⟨hr, by simp only [hd, Nat.add_sub_cancel], hs', ha⟩
  | abandoned s' =>
      rw [ho] at hp
      exact hp
  | broken fault =>
      rw [ho] at hp
      exact hp

theorem iterate {step : Parser (Option α)} {view : α → β} {bs : List β} {fuel : List Token}
    (h : Turns src n step view ts bs rest) (hf : ts.length ≤ fuel.length) :
    Runs src n (Parser.iterate step fuel) ts rest fun as => as.map view = bs := by
  induction h generalizing fuel with
  | stop hstep =>
      cases fuel with
      | nil =>
          refine bind hstep ?_
          rintro _ rfl
          exact (pure _).mono fun _ h => h ▸ rfl
      | cons _ fuel =>
          refine bind hstep ?_
          rintro _ rfl
          exact (pure _).mono fun _ h => h ▸ rfl
  | turn hstep hl _ ih =>
      cases fuel with
      | nil =>
          simp only [List.length_nil] at hf
          omega
      | cons _ fuel =>
          refine bind hstep ?_
          rintro _ ⟨a, rfl, ha⟩
          simp only [List.length_cons] at hf
          refine bind (ih (Nat.le_of_lt_succ (Nat.lt_of_lt_of_le hl hf))) fun as has => ?_
          exact (pure _).mono fun _ h => by rw [h, List.map_cons, ha, has]

theorem many {step : Parser (Option α)} {v : α → β} {bs : List β}
    (h : Turns src n step v ts bs rest) :
    Runs src n (Parser.many step) ts rest fun as => as.map v = bs := by
  intro he s hs hn
  have := iterate h (Nat.le_of_eq (congrArg List.length hs.symm)) he s hs hn
  exact this

end Runs

end Scad.Parse
