import Mathlib.Data.List.Infix
import Scad.Proofs.Tree.Bare
import Scad.Proofs.Tree.Order
import Scad.Token

/-! Where the nodes of a tree lie. A node spans a run of tokens: its range begins with the first and
ends with the last of them, and its parts span runs of their own inside of it, in the order of the
text. So ranges nest, and what is written first lies first. -/
namespace Scad

/-- The items of a list one behind the other in another, each on a run of its own, with anything
around them. -/
inductive Spread {α β : Type} (P : α → List β → Prop) : List α → List β → Prop
  | nil {us} : Spread P [] us
  | cons {a as before us behind} : P a us → Spread P as behind →
      Spread P (a :: as) (before ++ (us ++ behind))

namespace Spread

variable {α β γ : Type} {P Q : α → List β → Prop} {as bs : List α} {us vs : List β}

theorem before (vs : List β) (h : Spread P as us) : Spread P as (vs ++ us) := by
  cases h with
  | nil => exact .nil
  | cons ha h =>
      rw [← List.append_assoc]
      exact .cons ha h

theorem append (h : Spread P as us) (h' : Spread P bs vs) : Spread P (as ++ bs) (us ++ vs) := by
  induction h with
  | nil => exact h'.before _
  | cons ha _ ih =>
      rw [List.append_assoc, List.append_assoc]
      exact .cons ha ih

theorem behind (h : Spread P as us) (vs : List β) : Spread P as (us ++ vs) := by
  have hnil : Spread P [] vs := .nil
  have happend := h.append hnil
  rwa [List.append_nil] at happend

theorem single {a : α} (h : P a us) : Spread P [a] us := by
  have hcons : Spread P [a] ([] ++ (us ++ [])) := .cons h .nil
  rwa [List.nil_append, List.append_nil] at hcons

theorem imp (h : Spread P as us) (hPQ : ∀ a us, P a us → Q a us) : Spread Q as us := by
  induction h with
  | nil => exact .nil
  | cons ha _ ih => exact .cons (hPQ _ _ ha) ih

theorem of_map {P : γ → List β → Prop} {f : α → γ} (h : Spread P (as.map f) us) :
    Spread (fun a => P (f a)) as us := by
  induction as generalizing us with
  | nil => exact .nil
  | cons a as ih =>
      cases h with
      | cons ha h => exact .cons ha (ih h)

theorem map {P : γ → List β → Prop} {f : α → γ} (h : Spread (fun a => P (f a)) as us) :
    Spread P (as.map f) us := by
  induction h with
  | nil => exact .nil
  | cons ha _ ih => exact .cons ha ih

/-- The run of an item. -/
theorem run (h : Spread P as us) {a : α} (ha : a ∈ as) : ∃ vs, vs <:+: us ∧ P a vs := by
  induction h with
  | nil => exact absurd ha List.not_mem_nil
  | @cons b as before us behind hb _ ih =>
      rcases List.mem_cons.1 ha with rfl | ha
      · exact ⟨us, ⟨before, behind, List.append_assoc ..⟩, hb⟩
      · obtain ⟨vs, hvs, hP⟩ := ih ha
        refine ⟨vs, hvs.trans (List.IsSuffix.isInfix ⟨before ++ us, ?_⟩), hP⟩
        exact List.append_assoc ..

end Spread

/-- From one token to the end of another; nothing wide if that lies before it. -/
def spanOver (origin : String) (first last : Token) : Span :=
  ⟨origin, first.span.start,
    if last.span.stop.offset < first.span.start.offset then first.span.start else last.span.stop⟩

/-- Made of exactly these tokens: the range is that of the first to the last of them, and the parts
span runs among them. -/
def Node.Spans (n : Node) : List Token → Prop := n.fold fun m below ts =>
  (∃ first last, ts.head? = some first ∧ ts.getLast? = some last ∧
    m.span = spanOver m.span.origin first last) ∧ Spread (fun part us => part us) below.written ts

namespace Node.Spans

variable {n m : Node} {ts : List Token}

theorem mk {info : Info} {form : Form Node} {first last : Token} (hfirst : ts.head? = some first)
    (hlast : ts.getLast? = some last) (hspan : info.span = spanOver info.span.origin first last)
    (hparts : Spread Node.Spans form.written ts) : Node.Spans ⟨info, form⟩ ts := by
  have hbelow : Spread (fun part us => part us) (form.written.map Node.Spans) ts :=
    Spread.map hparts
  rw [Node.Spans, fold_mk, Form.written_map]
  exact ⟨⟨first, last, hfirst, hlast, hspan⟩, hbelow⟩

theorem whole (h : n.Spans ts) : ∃ first last, ts.head? = some first ∧ ts.getLast? = some last ∧
    n.span = spanOver n.span.origin first last := by
  obtain ⟨info, form⟩ := n
  rw [Node.Spans, fold_mk] at h
  exact h.1

theorem parts (h : n.Spans ts) : Spread Node.Spans n.form.written ts := by
  obtain ⟨info, form⟩ := n
  rw [Node.Spans, fold_mk, Form.written_map] at h
  exact h.2.of_map

theorem ne_nil (h : n.Spans ts) : ts ≠ [] := by
  obtain ⟨first, -, hfirst, -⟩ := h.whole
  rintro rfl
  cases hfirst

/-- A child is made of tokens of its parent. -/
theorem child (h : n.Spans ts) (hm : m ∈ n.children) : ∃ us, us <:+: ts ∧ m.Spans us :=
  h.parts.run (n.form.perm_written.mem_iff.2 hm)

/-- So is every node further down. -/
theorem descendant (h : n.Spans ts) (hm : m ∈ n.preorder) : ∃ us, us <:+: ts ∧ m.Spans us := by
  induction n using Node.ofChildren generalizing ts with
  | h n ih =>
      rw [preorder_eq] at hm
      rcases List.mem_cons.1 hm with rfl | hm
      · exact ⟨ts, List.infix_refl ts, h⟩
      · obtain ⟨c, hc, hm⟩ := List.mem_flatMap.1 hm
        obtain ⟨us, hus, hspans⟩ := h.child hc
        obtain ⟨vs, hvs, hmspans⟩ := ih c hc hspans hm
        exact ⟨vs, hvs.trans hus, hmspans⟩

end Node.Spans

/-- Tokens one behind the other, none of them empty. -/
structure InOrder (ts : List Token) : Prop where
  wide : ∀ t ∈ ts, t.span.start.offset < t.span.stop.offset
  apart : ts.Pairwise fun t u => t.span.stop.offset ≤ u.span.start.offset

namespace InOrder

variable {ts us : List Token}

theorem sublist (h : InOrder ts) (hus : us.Sublist ts) : InOrder us :=
  ⟨fun t ht => h.wide t (hus.subset ht), h.apart.sublist hus⟩

/-- All tokens lie between the first and the last. -/
theorem bounds (h : InOrder ts) {first last t : Token} (hfirst : ts.head? = some first)
    (hlast : ts.getLast? = some last) (ht : t ∈ ts) :
    first.span.start.offset ≤ t.span.start.offset ∧ t.span.stop.offset ≤ last.span.stop.offset := by
  constructor
  · obtain ⟨behind, rfl⟩ := List.head?_eq_some_iff.1 hfirst
    rcases List.mem_cons.1 ht with rfl | ht
    · exact Int.le_refl _
    · have hwide := h.wide first (List.mem_cons_self ..)
      have hapart := (List.pairwise_cons.1 h.apart).1 t ht
      omega
  · obtain ⟨before, rfl⟩ := List.getLast?_eq_some_iff.1 hlast
    rcases List.mem_append.1 ht with ht | ht
    · have hapart := (List.pairwise_append.1 h.apart).2.2 t ht last (List.mem_singleton_self _)
      have hwide := h.wide last (List.mem_append_right _ (List.mem_singleton_self _))
      omega
    · obtain rfl := List.mem_singleton.1 ht
      exact Int.le_refl _

end InOrder

namespace Node.Spans

variable {n m : Node} {ts : List Token}

/-- The range of a node is that of its tokens. -/
theorem range (h : n.Spans ts) (hts : InOrder ts) : ∃ first last, ts.head? = some first ∧
    ts.getLast? = some last ∧ n.span.start = first.span.start ∧ n.span.stop = last.span.stop := by
  obtain ⟨first, last, hfirst, hlast, hspan⟩ := h.whole
  have hmem := List.mem_of_getLast? hlast
  have hbounds := hts.bounds hfirst hlast hmem
  have hwide := hts.wide last hmem
  have hclip : ¬ last.span.stop.offset < first.span.start.offset := by omega
  refine ⟨first, last, hfirst, hlast, ?_, ?_⟩
  · rw [hspan]
    rfl
  · rw [hspan]
    exact if_neg hclip

theorem wide (h : n.Spans ts) (hts : InOrder ts) : n.span.start.offset < n.span.stop.offset := by
  obtain ⟨first, last, hfirst, hlast, hstart, hstop⟩ := h.range hts
  have hmem := List.mem_of_getLast? hlast
  have hbounds := hts.bounds hfirst hlast hmem
  have hwide := hts.wide last hmem
  rw [hstart, hstop]
  omega

/-- What lies on tokens of a node lies in its range. -/
theorem inside {us : List Token} (h : n.Spans ts) (hts : InOrder ts) (hm : m.Spans us)
    (hus : us <:+: ts) :
    n.span.start.offset ≤ m.span.start.offset ∧ m.span.stop.offset ≤ n.span.stop.offset := by
  obtain ⟨first, last, hfirst, hlast, hstart, hstop⟩ := h.range hts
  obtain ⟨first', last', hfirst', hlast', hstart', hstop'⟩ := hm.range (hts.sublist hus.sublist)
  have hhead := hts.bounds hfirst hlast (hus.mem (List.mem_of_head? hfirst'))
  have hend := hts.bounds hfirst hlast (hus.mem (List.mem_of_getLast? hlast'))
  rw [hstart, hstop, hstart', hstop']
  exact ⟨hhead.1, hend.2⟩

end Node.Spans

def Node.Before (a b : Node) : Prop := a.span.stop.offset ≤ b.span.start.offset

/-- Nodes one behind the other on tokens are so in the text. -/
theorem Spread.before_pairwise {ns : List Node} {ts : List Token} (h : Spread Node.Spans ns ts)
    (hts : InOrder ts) : ns.Pairwise Node.Before := by
  induction h with
  | nil => exact .nil
  | @cons n ns before us behind hn hrest ih =>
      have hus : us.Sublist (before ++ (us ++ behind)) :=
        (List.sublist_append_left us behind).trans (List.sublist_append_right before _)
      have hbehind : behind.Sublist (before ++ (us ++ behind)) :=
        (List.sublist_append_right us behind).trans (List.sublist_append_right before _)
      have hacross := (List.pairwise_append.1 (List.pairwise_append.1 hts.apart).2.1).2.2
      refine .cons (fun m hm => ?_) (ih (hts.sublist hbehind))
      obtain ⟨vs, hvs, hspans⟩ := hrest.run hm
      obtain ⟨-, last, -, hlast, -, hstop⟩ := hn.range (hts.sublist hus)
      obtain ⟨first, -, hfirst, -, hstart, -⟩ :=
        hspans.range ((hts.sublist hbehind).sublist hvs.sublist)
      have hle :=
        hacross last (List.mem_of_getLast? hlast) first (hvs.mem (List.mem_of_head? hfirst))
      rw [Node.Before, hstop, hstart]
      exact hle

/-- Different children do not meet. -/
theorem Node.Spans.disjoint {n : Node} {ts : List Token} (h : n.Spans ts) (hts : InOrder ts) :
    n.children.Pairwise fun a b => a.Before b ∨ b.Before a := by
  have hwritten := (h.parts.before_pairwise hts).imp fun {a b} hab =>
    (Or.inl hab : a.Before b ∨ b.Before a)
  exact (n.form.perm_written.pairwise_iff fun {a b} => Or.symm).1 hwritten

end Scad
