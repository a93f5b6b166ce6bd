import Mathlib.Data.List.Flatten
import Mathlib.Data.List.Pairwise
import Scad.Proofs.Tree.Extent

/-! In which order a walk meets the nodes of a text. A walk goes through the parts of a node
as the form lists them. That is the order of the text, except that a range lists its end
before its step. -/
namespace Scad

namespace Form

variable {α : Type}

theorem written_eq_children (f : Form α) :
    f.written = f.children ∨ ∃ a b s, f = range a b (some s) := by
  cases f with
  | range a b s =>
      cases s with
      | none => exact .inl rfl
      | some s => exact .inr ⟨a, b, s, rfl⟩
  | _ => exact .inl rfl

end Form

namespace Node

def Stepped (r : Node) : Prop := ∃ a b s, r.form = .range a b (some s)

/-- In a range, the first node belongs to the end and the second to the step. -/
def StepsBack (r m m' : Node) : Prop :=
  ∃ a b s, r.form = .range a b (some s) ∧ m ∈ b.preorder ∧ m' ∈ s.preorder

/-- A node begins no later than another. -/
def StartsBy (m m' : Node) : Prop := m.span.start.offset ≤ m'.span.start.offset

theorem preorder_sublist_flatMap {ns : List Node} {n : Node} (h : n ∈ ns) :
    n.preorder.Sublist (ns.flatMap preorder) := by
  have hflat := (List.singleton_sublist.2 h).flatMap preorder
  rwa [List.flatMap_singleton] at hflat

theorem sublist_preorder {n r : Node} (h : r ∈ n.preorder) : r.preorder.Sublist n.preorder := by
  induction n using ofChildren with
  | h n ih =>
      rw [preorder_eq n] at h ⊢
      rcases List.mem_cons.1 h with rfl | h
      · rw [← preorder_eq]
      · obtain ⟨c, hc, h⟩ := List.mem_flatMap.1 h
        exact ((ih c hc h).trans (preorder_sublist_flatMap hc)).cons _

theorem sublist_walkFrom {ns : List Node} {r : Node} (h : r ∈ walkFrom ns) :
    r.preorder.Sublist (walkFrom ns) := by
  obtain ⟨n, hn, h⟩ := mem_walkFrom.1 h
  rw [walkFrom_eq]
  exact (sublist_preorder h).trans (preorder_sublist_flatMap hn)

/-- The end of a range is walked through before its step. -/
theorem sublist_of_stepped {r a b s : Node} (h : r.form = .range a b (some s)) :
    [b, s].Sublist r.preorder := by
  have hchildren : r.children = [a, b, s] := by
    rw [children, h]
    rfl
  have hb := List.singleton_sublist.2 (mem_preorder_self b)
  have hs := List.singleton_sublist.2 (mem_preorder_self s)
  have hsub := hb.append (hs.append (List.Sublist.refl ([] : List Node)))
  rw [preorder_eq, hchildren]
  exact (hsub.trans (List.sublist_append_right a.preorder _)).cons _

namespace Spans

variable {n m a b : Node} {ts us : List Token}

/-- Whatever stands in a node lies in its range. -/
theorem below (h : n.Spans ts) (hts : InOrder ts) (hm : m ∈ n.preorder) :
    n.StartsBy m ∧ m.span.start.offset < m.span.stop.offset ∧
      m.span.stop.offset ≤ n.span.stop.offset := by
  obtain ⟨us, hus, hspans⟩ := h.descendant hm
  obtain ⟨hstart, hstop⟩ := h.inside hts hspans hus
  exact ⟨hstart, hspans.wide (hts.sublist hus.sublist), hstop⟩

/-- What stands in the first of two nodes begins before what stands in the second. -/
theorem starts_lt (ha : a.Spans ts) (hts : InOrder ts) (hb : b.Spans us) (hus : InOrder us)
    (hab : a.Before b) {x y : Node} (hx : x ∈ a.preorder) (hy : y ∈ b.preorder) :
    x.span.start.offset < y.span.start.offset := by
  have hx' := ha.below hts hx
  have hy' := (hb.below hus hy).1
  rw [Before] at hab
  rw [StartsBy] at hy'
  omega

/-- The step of a range lies before its end. -/
theorem step_before_end {s : Node} (h : n.Spans ts) (hts : InOrder ts)
    (hf : n.form = .range a b (some s)) :
    s.Before b := by
  have hwritten := h.parts.before_pairwise hts
  rw [hf] at hwritten
  have hrest := (List.pairwise_cons.1 hwritten).2
  exact (List.pairwise_cons.1 hrest).1 b (List.mem_singleton_self _)

theorem lt_of_stepsBack {m' : Node} (h : n.Spans ts) (hts : InOrder ts) (hback : n.StepsBack m m') :
    m'.span.start.offset < m.span.start.offset := by
  obtain ⟨a, b, s, hf, hm, hm'⟩ := hback
  have hchildren : n.children = [a, b, s] := by
    rw [children, hf]
    rfl
  obtain ⟨us, hus, hb⟩ := h.child (m := b) (by simp [hchildren])
  obtain ⟨vs, hvs, hs⟩ := h.child (m := s) (by simp [hchildren])
  exact hs.starts_lt (hts.sublist hvs.sublist) hb (hts.sublist hus.sublist)
    (h.step_before_end hts hf) hm' hm

/-- Of two children, the one that is listed first lies first, or they are the end and the step
of a range. -/
theorem children_order (h : n.Spans ts) (hts : InOrder ts) : n.children.Pairwise fun c c' =>
    c.Before c' ∨ ∃ a, n.form = .range a c (some c') := by
  have hwritten := h.parts.before_pairwise hts
  rcases n.form.written_eq_children with heq | ⟨a, b, s, hf⟩
  · rw [heq] at hwritten
    exact hwritten.imp .inl
  · have hchildren : n.children = [a, b, s] := by
      rw [children, hf]
      rfl
    rw [hf] at hwritten
    obtain ⟨ha, -⟩ := List.pairwise_cons.1 hwritten
    rw [hchildren]
    refine .cons (fun c hc => .inl (ha c ?_))
      (.cons (fun c hc => .inr ⟨a, ?_⟩) (List.pairwise_singleton _ _))
    · simp only [List.mem_cons, List.not_mem_nil, or_false] at hc
      rcases hc with rfl | rfl <;> simp
    · rw [List.mem_singleton.1 hc]
      exact hf

theorem preorder_order (h : n.Spans ts) (hts : InOrder ts) : n.preorder.Pairwise fun m m' =>
    m.StartsBy m' ∨ ∃ r ∈ n.preorder, r.StepsBack m m' := by
  induction n using ofChildren generalizing ts with
  | h n ih =>
      have hself := mem_preorder_self n
      rw [preorder_eq] at hself ⊢
      refine .cons (fun m hm => .inl ?_) (List.pairwise_flatMap.2 ⟨fun c hc => ?_, ?_⟩)
      · exact (h.below hts (by rw [preorder_eq]; exact List.mem_cons_of_mem _ hm)).1
      · obtain ⟨us, hus, hspans⟩ := h.child hc
        refine (ih c hc hspans (hts.sublist hus.sublist)).imp fun {m m'} hmm => ?_
        rcases hmm with hle | ⟨r, hr, hback⟩
        · exact .inl hle
        · exact .inr ⟨r, List.mem_cons_of_mem _ (List.mem_flatMap.2 ⟨c, hc, hr⟩), hback⟩
      · refine List.Pairwise.imp_of_mem (fun {c c'} hc hc' horder x hx y hy => ?_)
          (h.children_order hts)
        rcases horder with hbefore | ⟨a, hf⟩
        · obtain ⟨us, hus, hspans⟩ := h.child hc
          obtain ⟨vs, hvs, hspans'⟩ := h.child hc'
          exact .inl (Int.le_of_lt (hspans.starts_lt (hts.sublist hus.sublist) hspans'
            (hts.sublist hvs.sublist) hbefore hx hy))
        · exact .inr ⟨n, hself, a, c, c', hf, hx, hy⟩

end Spans

/-- A walk through trees that stand one behind the other. -/
theorem walkFrom_order {ns : List Node} {ts : List Token} (h : Spread Spans ns ts)
    (hts : InOrder ts) :
    (walkFrom ns).Pairwise fun m m' => m.StartsBy m' ∨ ∃ r ∈ walkFrom ns, r.StepsBack m m' := by
  rw [walkFrom_eq]
  refine List.pairwise_flatMap.2 ⟨fun n hn => ?_, ?_⟩
  · obtain ⟨us, hus, hspans⟩ := h.run hn
    refine (hspans.preorder_order (hts.sublist hus.sublist)).imp fun {m m'} hmm => ?_
    rcases hmm with hle | ⟨r, hr, hback⟩
    · exact .inl hle
    · exact .inr ⟨r, List.mem_flatMap.2 ⟨n, hn, hr⟩, hback⟩
  · refine List.Pairwise.imp_of_mem (fun {a b} ha hb hab x hx y hy => .inl ?_)
      (h.before_pairwise hts)
    obtain ⟨us, hus, hspans⟩ := h.run ha
    obtain ⟨vs, hvs, hspans'⟩ := h.run hb
    exact Int.le_of_lt (hspans.starts_lt (hts.sublist hus.sublist) hspans'
      (hts.sublist hvs.sublist) hab hx hy)

end Node

end Scad
