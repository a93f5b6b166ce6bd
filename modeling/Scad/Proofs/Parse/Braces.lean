import Scad.Parse.Statement

/-! Brace matching, and how what happened during parsing settles the braces of a stretch of tokens:
by a block that was read, within tokens that were skipped, or by dropping a brace. -/
namespace Scad

/-- The result of matching braces, all given by their places: the pairs in the order in which they
are closed, the closing braces without a partner, and the opening ones, innermost first. -/
structure Matching where
  pairs : List (Nat × Nat)
  unmatched : List Nat
  opened : List Nat

/-- Matches braces with a stack: a closing brace belongs to the last one that is open. The first
token has the place `place`, and the braces `opened` were open before it. -/
def matching (place : Nat) (opened : List Nat) : List Token → Matching
  | [] => ⟨[], [], opened⟩
  | t :: ts =>
    if t.kind = .symbol .leftBrace then matching (place + 1) (place :: opened) ts
    else if t.kind = .symbol .rightBrace then
      match opened with
      | [] =>
        let m := matching (place + 1) [] ts
        { m with unmatched := place :: m.unmatched }
      | o :: outer =>
        let m := matching (place + 1) outer ts
        { m with pairs := (o, place) :: m.pairs }
    else matching (place + 1) opened ts

def Token.isBrace (t : Token) : Bool :=
  t.kind = .symbol .leftBrace || t.kind = .symbol .rightBrace

section

variable {place : Nat} {opened : List Nat} {t : Token} {ts : List Token}

theorem matching_open (h : t.kind = .symbol .leftBrace) :
    matching place opened (t :: ts) = matching (place + 1) (place :: opened) ts := by
  rw [matching.eq_def]
  simp only [if_pos h]

theorem matching_close {o : Nat} (h : t.kind = .symbol .rightBrace) :
    matching place (o :: opened) (t :: ts) =
      { matching (place + 1) opened ts with
        pairs := (o, place) :: (matching (place + 1) opened ts).pairs } := by
  rw [matching, if_neg (by simp [h]), if_pos h]

theorem matching_drop (h : t.kind = .symbol .rightBrace) :
    matching place [] (t :: ts) =
      { matching (place + 1) [] ts with
        unmatched := place :: (matching (place + 1) [] ts).unmatched } := by
  rw [matching, if_neg (by simp [h]), if_pos h]

theorem matching_other (h : t.isBrace = false) :
    matching place opened (t :: ts) = matching (place + 1) opened ts := by
  simp only [Token.isBrace, Bool.or_eq_false_iff, decide_eq_false_iff_not] at h
  rw [matching.eq_def]
  simp only [if_neg h.1, if_neg h.2]

end

theorem matching_append (place : Nat) (opened : List Nat) (a b : List Token) :
    matching place opened (a ++ b) =
      ⟨(matching place opened a).pairs ++
          (matching (place + a.length) (matching place opened a).opened b).pairs,
        (matching place opened a).unmatched ++
          (matching (place + a.length) (matching place opened a).opened b).unmatched,
        (matching (place + a.length) (matching place opened a).opened b).opened⟩ := by
  induction a generalizing place opened with
  | nil => rfl
  | cons t a ih =>
      have hplace : place + (t :: a).length = place + 1 + a.length := by
        rw [List.length_cons]
        omega
      rw [hplace, List.cons_append]
      by_cases hl : t.kind = .symbol .leftBrace
      · rw [matching_open hl, matching_open hl, ih]
      by_cases hr : t.kind = .symbol .rightBrace
      · cases opened with
        | nil =>
            rw [matching_drop hr, matching_drop hr, ih]
            rfl
        | cons o outer =>
            rw [matching_close hr, matching_close hr, ih]
            rfl
      · have hother : t.isBrace = false := by simp [Token.isBrace, hl, hr]
        rw [matching_other hother, matching_other hother, ih]

/-- A pair is closed behind the place where it was opened. -/
theorem matching_bounds {place : Nat} {opened : List Nat} {ts : List Token}
    (hopened : ∀ o ∈ opened, o < place) {p : Nat × Nat}
    (hp : p ∈ (matching place opened ts).pairs) :
    (p.1 ∈ opened ∨ place ≤ p.1) ∧ p.1 < p.2 ∧ place ≤ p.2 ∧ p.2 < place + ts.length := by
  induction ts generalizing place opened with
  | nil => cases hp
  | cons t ts ih =>
      rw [List.length_cons]
      by_cases hl : t.kind = .symbol .leftBrace
      · rw [matching_open hl] at hp
        have hin : ∀ o ∈ place :: opened, o < place + 1 := by
          intro o ho
          rcases List.mem_cons.1 ho with rfl | ho
          · omega
          · exact Nat.lt_succ_of_lt (hopened o ho)
        obtain ⟨h, h', h'', h'''⟩ := ih hin hp
        refine ⟨?_, h', by omega, by omega⟩
        rcases h with h | h
        · rcases List.mem_cons.1 h with h | h
          · exact .inr (Nat.le_of_eq h.symm)
          · exact .inl h
        · exact .inr (by omega)
      by_cases hr : t.kind = .symbol .rightBrace
      · cases opened with
        | nil =>
            rw [matching_drop hr] at hp
            obtain ⟨h, h', h'', h'''⟩ := ih (by simp) hp
            exact ⟨h.imp id (by omega), h', by omega, by omega⟩
        | cons o outer =>
            rw [matching_close hr] at hp
            rcases List.mem_cons.1 hp with rfl | hp
            · have := hopened o (List.mem_cons_self ..)
              exact ⟨.inl (List.mem_cons_self ..), this, Nat.le_refl _, by simp only; omega⟩
            · have hin : ∀ x ∈ outer, x < place + 1 := fun x hx =>
                Nat.lt_succ_of_lt (hopened x (List.mem_cons_of_mem _ hx))
              obtain ⟨h, h', h'', h'''⟩ := ih hin hp
              exact ⟨h.imp (List.mem_cons_of_mem _) (by omega), h', by omega, by omega⟩
      · have hother : t.isBrace = false := by simp [Token.isBrace, hl, hr]
        rw [matching_other hother] at hp
        have hin : ∀ x ∈ opened, x < place + 1 := fun x hx => Nat.lt_succ_of_lt (hopened x hx)
        obtain ⟨h, h', h'', h'''⟩ := ih hin hp
        exact ⟨h.imp id (by omega), h', by omega, by omega⟩

namespace Parse

namespace Event

/-- The place of a brace that was dropped. -/
def discarded? : Event → Option Nat
  | .discarded place => some place
  | _ => none

/-- The places of braces that an event deals with. -/
def Covers : Event → Nat → Prop
  | .block opening closing, x => x = opening ∨ x = closing
  | .recovered _ _ first behind, x => first ≤ x ∧ x < behind
  | .discarded place, x => x = place
  | .error _, _ => False

/-- A block with these two braces, or a recovery that skipped both. -/
def Settles : Event → Nat × Nat → Prop
  | .block opening closing, p => p = (opening, closing)
  | .recovered _ _ first behind, p => (first ≤ p.1 ∧ p.1 < behind) ∧ first ≤ p.2 ∧ p.2 < behind
  | _, _ => False

theorem Settles.covers {e : Event} {p : Nat × Nat} (h : e.Settles p) :
    e.Covers p.1 ∧ e.Covers p.2 := by
  cases e with
  | block opening closing =>
      cases h
      exact ⟨.inl rfl, .inr rfl⟩
  | recovered start stop first behind => exact h
  | discarded place => exact h.elim
  | error d => exact h.elim

end Event

/-- Events settle the braces between two places: each pair is settled by an event, each block that
was read is a pair, the closing braces without a partner were dropped one after the other, and no
brace was dealt with twice. -/
structure Settled (first behind : Nat) (pairs : List (Nat × Nat)) (unmatched : List Nat)
    (events : List Event) : Prop where
  pair : ∀ p ∈ pairs, ∃ e ∈ events, e.Settles p
  block : ∀ o c, .block o c ∈ events → (o, c) ∈ pairs
  dropped : events.filterMap Event.discarded? = unmatched
  once : ∀ e ∈ events, ∀ f ∈ events, ∀ x, e.Covers x → f.Covers x → e = f
  within : ∀ e ∈ events, ∀ x, e.Covers x → first ≤ x ∧ x < behind

namespace Settled

variable {i j k : Nat} {ps qs : List (Nat × Nat)} {us vs : List Nat} {es fs : List Event}

theorem nil (i : Nat) : Settled i i [] [] [] := by
  constructor <;> simp

theorem append (h : Settled i j ps us es) (h' : Settled j k qs vs fs) (hij : i ≤ j) (hjk : j ≤ k) :
    Settled i k (ps ++ qs) (us ++ vs) (es ++ fs) where
  pair p hp := by
    rcases List.mem_append.1 hp with hp | hp
    · obtain ⟨e, he, hs⟩ := h.pair p hp
      exact ⟨e, List.mem_append_left _ he, hs⟩
    · obtain ⟨e, he, hs⟩ := h'.pair p hp
      exact ⟨e, List.mem_append_right _ he, hs⟩
  block o c hb := by
    rcases List.mem_append.1 hb with hb | hb
    · exact List.mem_append_left _ (h.block o c hb)
    · exact List.mem_append_right _ (h'.block o c hb)
  dropped := by rw [List.filterMap_append, h.dropped, h'.dropped]
  once e he f hf x hx hx' := by
    rcases List.mem_append.1 he with he | he
    · rcases List.mem_append.1 hf with hf | hf
      · exact h.once e he f hf x hx hx'
      · have := h.within e he x hx
        have := h'.within f hf x hx'
        omega
    · rcases List.mem_append.1 hf with hf | hf
      · have := h'.within e he x hx
        have := h.within f hf x hx'
        omega
      · exact h'.once e he f hf x hx hx'
  within e he x hx := by
    rcases List.mem_append.1 he with he | he
    · have := h.within e he x hx
      omega
    · have := h'.within e he x hx
      omega

/-- A token that is settled without an event. -/
theorem skip (h : Settled (i + 1) j ps us es) : Settled i j ps us es where
  pair := h.pair
  block := h.block
  dropped := h.dropped
  once := h.once
  within e he x hx := by
    have := h.within e he x hx
    omega

/-- A block around tokens whose braces are settled. -/
theorem wrap (h : Settled (i + 1) j ps us es) (hij : i < j) :
    Settled i (j + 1) (ps ++ [(i, j)]) us (es ++ [.block i j]) where
  pair p hp := by
    rcases List.mem_append.1 hp with hp | hp
    · obtain ⟨e, he, hs⟩ := h.pair p hp
      exact ⟨e, List.mem_append_left _ he, hs⟩
    · refine ⟨.block i j, List.mem_append_right _ (List.mem_singleton_self _), ?_⟩
      exact List.mem_singleton.1 hp
  block o c hb := by
    rcases List.mem_append.1 hb with hb | hb
    · exact List.mem_append_left _ (h.block o c hb)
    · cases List.mem_singleton.1 hb
      exact List.mem_append_right _ (List.mem_singleton_self _)
  dropped := by
    rw [List.filterMap_append, h.dropped]
    exact List.append_nil _
  once e he f hf x hx hx' := by
    have hnew : ∀ g ∈ es, g.Covers x → ¬ (Event.block i j).Covers x := by
      intro g hg hgx hb
      have := h.within g hg x hgx
      rcases hb with rfl | rfl <;> omega
    rcases List.mem_append.1 he with he | he
    · rcases List.mem_append.1 hf with hf | hf
      · exact h.once e he f hf x hx hx'
      · cases List.mem_singleton.1 hf
        exact absurd hx' (hnew e he hx)
    · cases List.mem_singleton.1 he
      rcases List.mem_append.1 hf with hf | hf
      · exact absurd hx (hnew f hf hx')
      · exact (List.mem_singleton.1 hf).symm
  within e he x hx := by
    rcases List.mem_append.1 he with he | he
    · have := h.within e he x hx
      omega
    · cases List.mem_singleton.1 he
      rcases hx with rfl | rfl <;> omega

end Settled

/-- All closing braces among these tokens have their partner there, `left` are the opening ones that
have none, and the events settle the pairs. Braces that were open before do not matter. -/
def Account (i : Nat) (ts : List Token) (es : List Event) (left : List Nat) : Prop :=
  ∃ pairs, (∀ outer, matching i outer ts = ⟨pairs, [], left ++ outer⟩) ∧
    Settled i (i + ts.length) pairs [] es

namespace Account

variable {i : Nat} {a b ts : List Token} {es fs : List Event} {left more : List Nat} {l r t : Token}

theorem nil (i : Nat) : Account i [] [] [] := ⟨[], fun _ => rfl, .nil i⟩

theorem token (h : t.isBrace = false) : Account i [t] [] [] :=
  ⟨[], fun _ => by rw [matching_other h]; rfl, .skip (.nil _)⟩

theorem append (h : Account i a es left) (h' : Account (i + a.length) b fs more) :
    Account i (a ++ b) (es ++ fs) (more ++ left) := by
  obtain ⟨ps, hm, hs⟩ := h
  obtain ⟨qs, hm', hs'⟩ := h'
  refine ⟨ps ++ qs, fun outer => ?_, ?_⟩
  · rw [matching_append, hm, hm', List.append_assoc]
    rfl
  · rw [List.length_append, ← Nat.add_assoc]
    exact hs.append hs' (Nat.le_add_right ..) (Nat.le_add_right ..)

/-- The tokens of a block that is still open. -/
theorem opened (hl : l.kind = .symbol .leftBrace) (h : Account (i + 1) ts es left) :
    Account i (l :: ts) es (left ++ [i]) := by
  obtain ⟨ps, hm, hs⟩ := h
  refine ⟨ps, fun outer => ?_, ?_⟩
  · rw [matching_open hl, hm, List.append_assoc]
    rfl
  · rw [List.length_cons, ← Nat.add_assoc, Nat.add_right_comm]
    exact hs.skip

/-- The tokens of a block with its braces. -/
theorem block (hl : l.kind = .symbol .leftBrace) (h : Account (i + 1) ts es [])
    (hr : r.kind = .symbol .rightBrace) :
    Account i (l :: (ts ++ [r])) (es ++ [.block i (i + 1 + ts.length)]) [] := by
  obtain ⟨ps, hm, hs⟩ := h
  refine ⟨ps ++ [(i, i + 1 + ts.length)], fun outer => ?_, ?_⟩
  · rw [matching_open hl, matching_append, hm, List.nil_append, matching_close hr]
    rfl
  · have hlen : i + (l :: (ts ++ [r])).length = i + 1 + ts.length + 1 := by
      simp only [List.length_cons, List.length_append, List.length_nil]
      omega
    rw [hlen]
    exact hs.wrap (by omega)

end Account

/-- What is skipped closes all the braces that it opens, unless the tokens end before. -/
theorem skipStatement_matching (depth : Nat) (previous : Token) (ts : List Token) (i : Nat)
    (inner : List Nat) (hdepth : inner.length = depth) :
    ∃ a pairs left, ts = a ++ (skipStatement depth previous ts).2 ∧
      (∀ outer, matching i (inner ++ outer) a = ⟨pairs, [], left ++ outer⟩) ∧
      (left = [] ∨ (skipStatement depth previous ts).2 = []) := by
  fun_induction skipStatement depth previous ts generalizing i inner with
  | case1 => exact ⟨[], [], inner, rfl, fun _ => rfl, .inr rfl⟩
  | case2 depth previous t rest h =>
      obtain rfl : inner = [] := List.length_eq_zero_iff.1 (hdepth.trans h.2)
      refine ⟨[t], [], [], rfl, fun outer => ?_, .inl rfl⟩
      rw [matching_other (by simp [Token.isBrace, h.1])]
      rfl
  | case3 depth previous t rest h hl ih =>
      obtain ⟨a, pairs, left, ha, hm, hend⟩ :=
        ih (i + 1) (i :: inner) (by rw [List.length_cons, hdepth])
      refine ⟨t :: a, pairs, left, congrArg (t :: ·) ha, fun outer => ?_, hend⟩
      rw [matching_open hl]
      exact hm outer
  | case4 previous t rest h hl hr =>
      obtain rfl : inner = [] := List.length_eq_zero_iff.1 hdepth
      exact ⟨[], [], [], rfl, fun _ => rfl, .inl rfl⟩
  | case5 previous t rest hl hr hne h =>
      obtain ⟨o, rfl⟩ := List.length_eq_one_iff.1 hdepth
      refine ⟨[t], [(o, i)], [], rfl, fun outer => ?_, .inl rfl⟩
      rw [List.singleton_append, matching_close hr]
      rfl
  | case6 depth previous t rest h hl hr hne hne' ih =>
      cases inner with
      | nil => exact absurd hdepth.symm hne
      | cons o inner =>
          have hlen : inner.length = depth - 1 := by
            rw [← hdepth, List.length_cons, Nat.add_sub_cancel]
          obtain ⟨a, pairs, left, ha, hm, hend⟩ := ih (i + 1) inner hlen
          refine ⟨t :: a, (o, i) :: pairs, left, congrArg (t :: ·) ha, fun outer => ?_, hend⟩
          rw [List.cons_append, matching_close hr, hm outer]
  | case7 depth previous t rest h hl hr ih =>
      obtain ⟨a, pairs, left, ha, hm, hend⟩ := ih (i + 1) inner hdepth
      refine ⟨t :: a, pairs, left, congrArg (t :: ·) ha, fun outer => ?_, hend⟩
      rw [matching_other (by simp [Token.isBrace, hl, hr]), hm outer]

/-- A recovery settles the braces of what it skips. -/
theorem account_skipStatement (previous : Token) (ts : List Token) (i : Nat) (start stop : Span) :
    ∃ a left, ts = a ++ (skipStatement 0 previous ts).2 ∧
      Account i a [.recovered start stop i (i + a.length)] left ∧
      (left = [] ∨ (skipStatement 0 previous ts).2 = []) := by
  obtain ⟨a, pairs, left, ha, hm, hend⟩ := skipStatement_matching 0 previous ts i [] rfl
  refine ⟨a, left, ha, ⟨pairs, hm, ?_⟩, hend⟩
  have hbounds : ∀ p ∈ pairs, i ≤ p.1 ∧ p.1 < p.2 ∧ p.2 < i + a.length := by
    intro p hp
    have hmem : p ∈ (matching i [] a).pairs := by
      rw [← List.append_nil [], hm]
      exact hp
    obtain ⟨h, h', -, h''⟩ := matching_bounds (by simp) hmem
    exact ⟨h.resolve_left (List.not_mem_nil), h', h''⟩
  constructor
  · intro p hp
    refine ⟨_, List.mem_singleton_self _, ?_⟩
    have := hbounds p hp
    constructor <;> omega
  · intro o c h
    cases List.mem_singleton.1 h
  · rfl
  · intro e he f hf x _ _
    rw [List.mem_singleton.1 he, List.mem_singleton.1 hf]
  · intro e he x hx
    cases List.mem_singleton.1 he
    exact hx

end Parse

end Scad
