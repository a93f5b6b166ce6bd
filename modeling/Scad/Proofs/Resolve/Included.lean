import Mathlib.Logic.Relation
import Scad.Proofs.Resolve.Imports

/-! What the top level of a dependency has is brought in once, when the first file reference that
leads to it is followed. Its functions and modules come in any case; its variables come if that
reference includes. -/
namespace Scad

namespace Resolve

variable (deps : Dependencies)

/-- A document includes another at its top level. -/
def Includes (d e : Document) : Prop :=
  ∃ n ∈ d.statements, ∃ file, n.form = .fileReference .everything file ∧ deps.find? file = some e

def Reaches : Document → Document → Prop := Relation.ReflTransGen (Includes deps)

/-- A statement refers to a document that reaches another one. -/
def LeadsBy (inclusion : Inclusion) (n : Node) (e : Document) : Prop :=
  ∃ file d, n.form = .fileReference inclusion file ∧ deps.find? file = some d ∧ Reaches deps d e

/-- What a statement of a dependency declares or includes was brought in. -/
def Present (withVariables : Bool) (x : Exports) (n : Node) : Prop :=
  match n.form with
  | .fileReference .everything file => ∀ d, deps.find? file = some d → d.origin ∈ x.seen
  | .moduleDefinition name _ _ => ((x.frame.table .modules).lookup name).isSome
  | .functionDefinition name _ _ => ((x.frame.table .functions).lookup name).isSome
  | .assignment t _ => withVariables → ((x.frame.table .vars).lookup (t.name?.getD "")).isSome
  | _ => True

def Finished (withVariables : Bool) (x : Exports) (d : Document) : Prop :=
  ∀ n ∈ d.statements, Present deps withVariables x n

variable {deps} {withVariables : Bool} {reach : Document → Prop} {x y z : Exports}
  {d e : Document} {n : Node}

theorem mem_of_reaches (h : Reaches deps d e) (hd : d ∈ deps.map Prod.snd) :
    e ∈ deps.map Prod.snd := by
  induction h with
  | refl => exact hd
  | tail _ hstep _ =>
      obtain ⟨n, -, file, -, hfind⟩ := hstep
      exact mem_of_find? hfind

namespace Exports

/-- No document and no name is lost. -/
structure Extends (x y : Exports) : Prop where
  seen : x.seen ⊆ y.seen
  names : ∀ c name, ((x.frame.table c).lookup name).isSome → ((y.frame.table c).lookup name).isSome

namespace Extends

theorem refl (x : Exports) : Extends x x := ⟨fun _ h => h, fun _ _ h => h⟩

theorem trans (h : Extends x y) (h' : Extends y z) : Extends x z :=
  ⟨fun _ ho => h'.seen (h.seen ho), fun c name hs => h'.names c name (h.names c name hs)⟩

theorem define (x : Exports) (c : NameClass) (name : String) (b : Binding) :
    Extends x (x.define c name b) := by
  refine ⟨fun _ h => h, fun c' other hs => ?_⟩
  rw [show (x.define c name b).frame = x.frame.define c name b from rfl, Frame.lookup_define]
  split
  · rfl
  · exact hs

end Extends

/-- What is added on the way through the documents that are reached: names are bound to those of
them that are new. -/
structure Adds (reach : Document → Prop) (withVariables : Bool) (x y : Exports) :
    Prop extends Extends x y where
  reached : ∀ o ∈ y.seen, o ∈ x.seen ∨ ∃ d, reach d ∧ d.origin = o
  bound : ∀ c name b, (y.frame.table c).lookup name = some b →
    (x.frame.table c).lookup name = some b ∨
    ∃ o ∈ y.seen, o ∉ x.seen ∧ b.origin = some o ∧ (c = .vars → withVariables)

namespace Adds

theorem refl (reach : Document → Prop) (withVariables : Bool) (x : Exports) :
    Adds reach withVariables x x :=
  ⟨.refl x, fun _ h => .inl h, fun _ _ _ h => .inl h⟩

theorem trans (h : Adds reach withVariables x y) (h' : Adds reach withVariables y z) :
    Adds reach withVariables x z := by
  refine ⟨h.toExtends.trans h'.toExtends, fun o ho => (h'.reached o ho).elim (h.reached o) .inr,
    fun c name b hb => ?_⟩
  rcases h'.bound c name b hb with hb | ⟨o, ho, hnew, hbo, hv⟩
  · rcases h.bound c name b hb with hb | ⟨o, ho, hnew, hbo, hv⟩
    · exact .inl hb
    · exact .inr ⟨o, h'.seen ho, hnew, hbo, hv⟩
  · exact .inr ⟨o, ho, fun hx => hnew (h.seen hx), hbo, hv⟩

theorem mono {reach' : Document → Prop} (h : Adds reach withVariables x y)
    (hreach : ∀ d, reach d → reach' d) :
    Adds reach' withVariables x y :=
  ⟨h.toExtends, fun o ho => (h.reached o ho).imp_right fun ⟨d, hd, he⟩ => ⟨d, hreach d hd, he⟩,
    h.bound⟩

theorem enter (h : reach d) : Adds reach withVariables x (x.enter d) := by
  refine ⟨⟨List.subset_cons_self _ _, fun _ _ hs => hs⟩, fun o ho => ?_, fun _ _ _ hb => .inl hb⟩
  exact (List.mem_cons.1 ho).elim (fun he => .inr ⟨d, h, he.symm⟩) .inl

/-- A name is defined in a document that is new. -/
theorem define (h : Adds reach withVariables x y) {c : NameClass} {name : String}
    {b : Binding} {o : String} (hb : b.origin = some o) (ho : o ∈ y.seen) (hnew : o ∉ x.seen)
    (hv : c = .vars → withVariables) :
    Adds reach withVariables x (y.define c name b) := by
  refine ⟨h.toExtends.trans (.define y c name b), h.reached, fun c' other b' hl => ?_⟩
  rw [show (y.define c name b).frame = y.frame.define c name b from rfl, Frame.lookup_define] at hl
  split at hl
  · rename_i heq
    cases hl
    exact .inr ⟨o, ho, hnew, hb, fun hc => hv (heq.1.trans hc)⟩
  · exact h.bound c' other b' hl

end Adds

end Exports

open Exports (Adds Extends)

theorem Present.mono (h : Present deps withVariables x n) (hxy : Extends x y) :
    Present deps withVariables y n := by
  unfold Present at *
  split at h
  · exact fun d hd => hxy.seen (h d hd)
  · exact hxy.names _ _ h
  · exact hxy.names _ _ h
  · exact fun hv => hxy.names _ _ (h hv)
  · trivial

theorem Finished.mono (h : Finished deps withVariables x d) (hxy : Extends x y) :
    Finished deps withVariables y d :=
  fun n hn => (h n hn).mono hxy

theorem Finished.definitions (h : Finished deps withVariables x d) : Finished deps false x d := by
  intro n hn
  have hpresent := h n hn
  unfold Present at *
  split at hpresent
  · exact hpresent
  · exact hpresent
  · exact hpresent
  · exact nofun
  · trivial

/-- What is included in a finished document is visited. -/
theorem Finished.includes (h : Finished deps withVariables x d) (hde : Includes deps d e) :
    e.origin ∈ x.seen := by
  obtain ⟨n, hn, file, hf, hfind⟩ := hde
  have hpresent := h n hn
  rw [Present, hf] at hpresent
  exact hpresent e hfind

theorem Finished.variable (h : Finished deps true x d) (hn : n ∈ d.statements) {t v : Node}
    (hf : n.form = .assignment t v) : ((x.frame.table .vars).lookup (t.name?.getD "")).isSome := by
  have hpresent := h n hn
  rw [Present, hf] at hpresent
  exact hpresent rfl

theorem Finished.definition (h : Finished deps withVariables x d) (hn : n ∈ d.statements)
    {f : Declaration} (hf : n.declaration? = some f) {c : NameClass} (hc : c ≠ .vars)
    (hkind : c.definitionKind = f.kind) :
    ((x.frame.table c).lookup f.name).isSome := by
  have hpresent := h n hn
  obtain ⟨info, form⟩ := n
  cases form <;> cases hf <;> cases c <;> cases hkind <;> first | exact absurd rfl hc |
    exact hpresent

/-! ### Going through a dependency -/

section

variable {nested : Document → Exports → Exports}

/-- A statement adds what the document that it includes adds, or a name of its own document. -/
theorem exportStatement_adds {reach : Document → Prop} (hn : n ∈ d.statements)
    (hreach : ∀ e, Includes deps d e → reach e)
    (hnested : ∀ e, reach e → ∀ y, Adds reach withVariables y (nested e y)) (hd : d.origin ∈ y.seen)
    (hnew : d.origin ∉ x.seen) (h : Adds reach withVariables x y) :
    Adds reach withVariables x (exportStatement deps withVariables d.origin nested y n) := by
  unfold exportStatement
  split
  · rename_i file hf
    split
    · rename_i e hfind
      exact h.trans (hnested e (hreach e ⟨n, hn, file, hf, hfind⟩) y)
    · exact h
  · exact h.define rfl hd hnew nofun
  · exact h.define rfl hd hnew nofun
  · split
    · rename_i hv
      exact h.define rfl hd hnew fun _ => hv
    · exact h
  · exact h

/-- After a statement, what it declares or includes is there. -/
theorem exportStatement_present (hnested : ∀ e ∈ deps.map Prod.snd, e.origin ∈ (nested e x).seen)
    (origin : String) (n : Node) :
    Present deps withVariables (exportStatement deps withVariables origin nested x n) n := by
  have hdefine : ∀ c name b, (((x.define c name b).frame.table c).lookup name).isSome := by
    intro c name b
    rw [show (x.define c name b).frame = x.frame.define c name b from rfl, Frame.lookup_define,
      if_pos ⟨rfl, rfl⟩]
    rfl
  unfold Present
  split
  · rename_i file hf
    intro e hfind
    simp only [exportStatement, hf, hfind]
    exact hnested e (mem_of_find? hfind)
  · rename_i hf
    simp only [exportStatement, hf]
    exact hdefine _ _ _
  · rename_i hf
    simp only [exportStatement, hf]
    exact hdefine _ _ _
  · rename_i hf
    intro hv
    simp only [exportStatement, hf, hv, if_true]
    exact hdefine _ _ _
  · trivial

end

theorem exportFrom_adds (fuel : Nat) (d : Document) (x : Exports) :
    Adds (Reaches deps d) withVariables x (exportFrom deps withVariables fuel d x) := by
  induction fuel generalizing d x with
  | zero => exact .refl _ _ x
  | succ fuel ih =>
      rw [exportFrom]
      split
      · exact .refl _ _ x
      · rename_i hnew
        have hstart : Adds (Reaches deps d) withVariables x (x.enter d) := .enter .refl
        refine (List.foldlRecOn (motive := fun y => d.origin ∈ y.seen ∧
          Adds (Reaches deps d) withVariables x y) d.statements _ ⟨List.mem_cons_self .., hstart⟩
          fun y h n hn => ?_).2
        obtain ⟨hd, hy⟩ := h
        have hstep := exportStatement_adds hn (fun e he => .single he)
          (fun e he y => (ih e y).mono fun _ => he.trans) hd hnew hy
        exact ⟨(exportStatement_grows (exportFrom_grows fuel) d.origin y n).seen hd, hstep⟩

/-- Every dependency that is new is there as a whole. -/
def Completes (deps : Dependencies) (withVariables : Bool) (x y : Exports) : Prop :=
  ∀ e ∈ deps.map Prod.snd, e.origin ∈ y.seen → e.origin ∈ x.seen ∨ Finished deps withVariables y e

theorem Completes.of_seen (h : y.seen ⊆ x.seen) : Completes deps withVariables x y :=
  fun _ _ ho => .inl (h ho)

theorem Completes.trans (h : Completes deps withVariables x y)
    (h' : Completes deps withVariables y z) (hyz : Extends y z) :
    Completes deps withVariables x z := by
  intro e he ho
  rcases h' e he ho with ho | hfinished
  · exact (h e he ho).imp_right fun hfinished => hfinished.mono hyz
  · exact .inr hfinished

/-- Statement by statement, all that a list declares or includes comes to be there. -/
theorem foldl_present (step : Exports → Node → Exports) {fuel : Nat}
    (hstep : ∀ y n, (unseen deps y).card ≤ fuel → Exports.Grows y (step y n) ∧
      Extends y (step y n) ∧ Completes deps withVariables y (step y n) ∧ Present deps withVariables
    (step y n) n) (ns : List Node) (hx : (unseen deps x).card ≤ fuel) :
    Extends x (ns.foldl step x) ∧ Completes deps withVariables x (ns.foldl step x) ∧
      ∀ n ∈ ns, Present deps withVariables (ns.foldl step x) n := by
  induction ns generalizing x with
  | nil => exact ⟨.refl x, .of_seen fun _ h => h, nofun⟩
  | cons n ns ih =>
      obtain ⟨hgrows, hextends, hcompletes, hpresent⟩ := hstep x n hx
      obtain ⟨hextends', hcompletes', hpresent'⟩ := ih (hgrows.unseen_le.trans hx)
      refine ⟨hextends.trans hextends', hcompletes.trans hcompletes' hextends', fun m hm => ?_⟩
      rcases List.mem_cons.1 hm with rfl | hm
      · exact hpresent.mono hextends'
      · exact hpresent' m hm

/-- One statement of a dependency. -/
theorem exportStatement_completes {fuel : Nat} {origin : String}
    (hnested : ∀ e ∈ deps.map Prod.snd, ∀ y, (unseen deps y).card ≤ fuel →
      e.origin ∈ (exportFrom deps withVariables fuel e y).seen ∧
        Completes deps withVariables y (exportFrom deps withVariables fuel e y))
    (y : Exports) (n : Node) (hy : (unseen deps y).card ≤ fuel) :
    let z := exportStatement deps withVariables origin (exportFrom deps withVariables fuel) y n
    Exports.Grows y z ∧ Extends y z ∧ Completes deps withVariables y z ∧
      Present deps withVariables z n := by
  intro z
  have hpresent : Present deps withVariables z n :=
    exportStatement_present (fun e he => (hnested e he y hy).1) origin n
  have hgrows : Exports.Grows y z := exportStatement_grows (exportFrom_grows fuel) origin y n
  rcases exportStatement_cases origin (exportFrom deps withVariables fuel) y n with
    he | ⟨e, hdep, he⟩ | ⟨c, name, b, he, -⟩
  · have hz : z = y := he
    exact ⟨hgrows, hz ▸ .refl y, .of_seen (by rw [hz]; exact fun _ h => h), hpresent⟩
  · have hz : z = exportFrom deps withVariables fuel e y := he
    exact ⟨hgrows, hz ▸ (exportFrom_adds fuel e y).toExtends,
      hz ▸ (hnested e hdep y hy).2, hpresent⟩
  · have hz : z = y.define c name b := he
    exact ⟨hgrows, hz ▸ .define y c name b, .of_seen (by rw [hz]; exact fun _ h => h), hpresent⟩

section

variable (hsame : ∀ e ∈ deps.map Prod.snd, ∀ e' ∈ deps.map Prod.snd, e.origin = e'.origin → e = e')

include hsame

/-- A dependency that is gone through has been visited, and all that is new on the way is there
as a whole. -/
theorem exportFrom_completes {fuel : Nat} (hd : d ∈ deps.map Prod.snd)
    (hfuel : (unseen deps x).card ≤ fuel) :
    d.origin ∈ (exportFrom deps withVariables fuel d x).seen ∧
      Completes deps withVariables x (exportFrom deps withVariables fuel d x) := by
  induction fuel generalizing d x with
  | zero =>
      have hseen : d.origin ∈ x.seen := by
        by_contra hnew
        exact absurd (Finset.card_pos.2 ⟨_, mem_unseen hd hnew⟩) (by omega)
      exact ⟨hseen, .of_seen fun _ h => h⟩
  | succ fuel ih =>
      rw [exportFrom]
      split
      · rename_i hseen
        exact ⟨hseen, .of_seen fun _ h => h⟩
      · rename_i hnew
        -- The visit leaves less unseen, so what it goes through is complete; at its end all of its
        -- own is present.
        have hless := unseen_enter_lt hd hnew
        obtain ⟨hextends, hcompletes, hpresent⟩ := foldl_present
          (exportStatement deps withVariables d.origin (exportFrom deps withVariables fuel))
          (exportStatement_completes fun e he y hy => ih he hy) d.statements
          (show (unseen deps (x.enter d)).card ≤ fuel by omega)
        refine ⟨hextends.seen (List.mem_cons_self ..), fun e he ho => ?_⟩
        rcases hcompletes e he ho with ho | hfinished
        · rcases List.mem_cons.1 ho with ho | ho
          · exact .inr (hsame e he d hd ho ▸ hpresent)
          · exact .inl ho
        · exact .inr hfinished

/-! ### What the file references of a document bring in -/

omit hsame in
/-- A statement refers to no dependency, or goes through one. -/
theorem importStatement_cases (deps : Dependencies) (x : Exports) (n : Node) :
    ((∀ inclusion e, ¬ LeadsBy deps inclusion n e) ∧ importStatement deps x n = x) ∨
    ∃ inclusion file e, n.form = .fileReference inclusion file ∧ deps.find? file = some e ∧
      importStatement deps x n = exportFrom deps (inclusion = .everything) deps.length e x := by
  cases hf : n.form with
  | fileReference inclusion file =>
      cases hfind : deps.find? file with
      | some e =>
          exact .inr ⟨inclusion, file, e, rfl, hfind, by simp only [importStatement, hf, hfind]⟩
      | none =>
          refine .inl ⟨?_, by simp only [importStatement, hf, hfind]⟩
          rintro inclusion' e ⟨file', d, hf', hd, -⟩
          rw [hf] at hf'
          cases hf'
          rw [hfind] at hd
          cases hd
  | _ =>
      refine .inl ⟨?_, by simp only [importStatement, hf]⟩
      rintro inclusion e ⟨file, d, hf', -⟩
      rw [hf] at hf'
      cases hf'

omit hsame in
theorem LeadsBy.mem {inclusion : Inclusion} (h : LeadsBy deps inclusion n e) :
    e ∈ deps.map Prod.snd := by
  obtain ⟨file, d, -, hfind, hreach⟩ := h
  exact mem_of_reaches hreach (mem_of_find? hfind)

/-- One statement adds what it leads to, with the variables if it includes. -/
theorem importStatement_adds (x : Exports) (n : Node) : ∃ inclusion : Inclusion,
    Adds (LeadsBy deps inclusion n) (inclusion = .everything) x (importStatement deps x n) ∧
      Completes deps (inclusion = .everything) x (importStatement deps x n) := by
  rcases importStatement_cases deps x n with ⟨-, hstep⟩ | ⟨inclusion, file, e, hf, hfind, hstep⟩
  · rw [hstep]
    exact ⟨.everything, .refl _ _ x, .of_seen fun _ h => h⟩
  · rw [hstep]
    refine ⟨inclusion, (exportFrom_adds deps.length e x).mono fun d hd =>
      ⟨file, e, hf, hfind, hd⟩, ?_⟩
    exact (exportFrom_completes hsame (mem_of_find? hfind) (card_unseen_le deps x)).2

theorem importStatement_seen (x : Exports) {inclusion : Inclusion} {file : String}
    (hf : n.form = .fileReference inclusion file) (hfind : deps.find? file = some e) :
    e.origin ∈ (importStatement deps x n).seen := by
  simp only [importStatement, hf, hfind]
  exact (exportFrom_completes hsame (mem_of_find? hfind) (card_unseen_le deps x)).1

omit hsame in
theorem brought_append (origin : String) (ns : List Node) (n : Node) :
    brought deps origin (ns ++ [n]) = importStatement deps (brought deps origin ns) n := by
  rw [brought, List.foldl_append]
  rfl

/-- Every dependency that was visited is there as a whole, apart from its variables. -/
theorem brought_completes (origin : String) (ns : List Node) :
    Completes deps false ⟨Frame.empty, [origin], []⟩ (brought deps origin ns) := by
  induction ns using List.reverseRecOn with
  | nil => exact .of_seen fun _ h => h
  | append_singleton ns n ih =>
      rw [brought_append]
      obtain ⟨inclusion, hadds, hcompletes⟩ := importStatement_adds hsame (brought deps origin ns) n
      exact ih.trans (fun e he ho => (hcompletes e he ho).imp_right Finished.definitions)
        hadds.toExtends

theorem extends_foldl (x : Exports) (ns : List Node) :
    Extends x (ns.foldl (importStatement deps) x) :=
  List.foldlRecOn ns _ (.refl x) fun y hy n _ =>
    let ⟨_, hadds, _⟩ := importStatement_adds hsame y n
    hy.trans hadds.toExtends

/-- Whatever a statement refers to is visited. -/
theorem seen_brought (origin : String) {before after : List Node} {inclusion : Inclusion}
    {file : String} (hf : n.form = .fileReference inclusion file)
    (hfind : deps.find? file = some e) :
    e.origin ∈ (brought deps origin (before ++ n :: after)).seen := by
  rw [brought, List.foldl_append, List.foldl_cons]
  exact (extends_foldl hsame _ after).seen (importStatement_seen hsame _ hf hfind)

/-! The variables of a dependency. -/

section

variable {origin : String} (hother : ∀ e ∈ deps.map Prod.snd, e.origin ≠ origin)

include hother

/-- So is whatever it leads to. -/
theorem seen_of_leadsBy {inclusion : Inclusion} (h : LeadsBy deps inclusion n e) (ns : List Node) :
    e.origin ∈ (brought deps origin (ns ++ [n])).seen := by
  obtain ⟨file, d, hf, hfind, hreach⟩ := h
  induction hreach with
  | refl => exact seen_brought hsame origin hf hfind
  | @tail e e' hreach hstep ih =>
      have he : e ∈ deps.map Prod.snd := mem_of_reaches hreach (mem_of_find? hfind)
      rcases brought_completes hsame origin (ns ++ [n]) e he ih with ho | hfinished
      · exact absurd (List.mem_singleton.1 ho) (hother e he)
      · exact hfinished.includes hstep

/-- If nothing has led to a document but what includes, then its variables are there when it
was visited. -/
theorem finished_of_included {ns : List Node} (he : e ∈ deps.map Prod.snd)
    (hns : ∀ m ∈ ns, ¬ LeadsBy deps .definitions m e)
    (ho : e.origin ∈ (brought deps origin ns).seen) :
    Finished deps true (brought deps origin ns) e := by
  induction ns using List.reverseRecOn with
  | nil => exact absurd (List.mem_singleton.1 ho) (hother e he)
  | append_singleton ns n ih =>
      obtain ⟨inclusion, hadds, hcompletes⟩ := importStatement_adds hsame (brought deps origin ns) n
      rw [brought_append] at ho ⊢
      have hbefore : e.origin ∈ (brought deps origin ns).seen →
          Finished deps true (importStatement deps (brought deps origin ns) n) e := fun ho =>
        (ih (fun m hm => hns m (List.mem_append_left _ hm)) ho).mono hadds.toExtends
      cases inclusion with
      | everything => exact (hcompletes e he ho).elim hbefore id
      | definitions =>
          rcases hadds.reached e.origin ho with ho | ⟨e', hlead, heq⟩
          · exact hbefore ho
          · obtain rfl := hsame e' hlead.mem e he heq
            exact absurd hlead (hns n (by simp))

end

def Unbound (x : Exports) (e : Document) : Prop :=
  ∀ name b, (x.frame.table .vars).lookup name = some b → b.origin ≠ some e.origin

/-- If nothing has led to a document but what does not include, then its variables are not there. -/
theorem unbound_of_used {origin : String} {ns : List Node} (he : e ∈ deps.map Prod.snd)
    (hns : ∀ m ∈ ns, ¬ LeadsBy deps .everything m e) : Unbound (brought deps origin ns) e := by
  induction ns using List.reverseRecOn with
  | nil => exact fun name b hb => by cases hb
  | append_singleton ns n ih =>
      obtain ⟨inclusion, hadds, -⟩ := importStatement_adds hsame (brought deps origin ns) n
      rw [brought_append]
      intro name b hb ho
      rcases hadds.bound .vars name b hb with hb | ⟨o, hseen, hnew, hbo, hv⟩
      · exact ih (fun m hm => hns m (List.mem_append_left _ hm)) name b hb ho
      · obtain rfl : inclusion = .everything := of_decide_eq_true (hv rfl)
        rcases hadds.reached o hseen with hold | ⟨e', hlead, heq⟩
        · exact hnew hold
        · have horigin : e'.origin = e.origin := heq.trans (Option.some.inj (hbo.symm.trans ho))
          obtain rfl := hsame e' hlead.mem e he horigin
          exact hns n (by simp) hlead

/-- Once a document was visited, no more of it is brought in. -/
theorem Unbound.foldl (h : Unbound x e) (ho : e.origin ∈ x.seen) (ns : List Node) :
    Unbound (ns.foldl (importStatement deps) x) e := by
  refine (List.foldlRecOn (motive := fun y => e.origin ∈ y.seen ∧ Unbound y e) ns _ ⟨ho, h⟩
    fun y hkept n _ => ?_).2
  obtain ⟨hseen, hy⟩ := hkept
  obtain ⟨inclusion, hadds, -⟩ := importStatement_adds hsame y n
  refine ⟨hadds.seen hseen, fun name b hb hbe => ?_⟩
  rcases hadds.bound .vars name b hb with hb | ⟨o, -, hnew, hbo, -⟩
  · exact hy name b hb hbe
  · cases hbo.symm.trans hbe
    exact hnew hseen

end

/-- Every document that a document reaches is there as a whole, apart from its variables. -/
theorem finished_of_reaches
    (hsame : ∀ e ∈ d :: deps.map Prod.snd, ∀ e' ∈ d :: deps.map Prod.snd, e.origin =
      e'.origin → e = e')
    (h : Reaches deps d e) (hne : e ≠ d) :
    Finished deps false (brought deps d.origin d.statements) e := by
  have hdeps : ∀ e ∈ deps.map Prod.snd, ∀ e' ∈ deps.map Prod.snd, e.origin = e'.origin → e = e' :=
    fun e he e' he' => hsame e (List.mem_cons_of_mem _ he) e' (List.mem_cons_of_mem _ he')
  have hfinished : ∀ c ∈ deps.map Prod.snd, c ≠ d →
    c.origin ∈ (brought deps d.origin d.statements).seen →
      Finished deps false (brought deps d.origin d.statements) c := by
    intro c hc hcd ho
    refine (brought_completes hdeps d.origin d.statements c hc ho).resolve_left fun ho => hcd ?_
    exact hsame c (List.mem_cons_of_mem _ hc) d (List.mem_cons_self ..) (List.mem_singleton.1 ho)
  have hmem : ∀ c, Reaches deps d c → c ≠ d → c ∈ deps.map Prod.snd := by
    intro c hc hcd
    rcases hc.cases_tail with he | ⟨b, -, n, -, file, -, hfind⟩
    · exact absurd he.symm (Ne.symm hcd)
    · exact mem_of_find? hfind
  refine hfinished e (hmem e h hne) hne ?_
  clear hne
  induction h with
  | refl => exact (extends_foldl hdeps _ d.statements).seen (List.mem_singleton_self _)
  | @tail b c hb hstep ih =>
      by_cases hbd : b = d
      · subst hbd
        obtain ⟨n, hn, file, hf, hfind⟩ := hstep
        obtain ⟨before, after, hstatements⟩ := List.append_of_mem hn
        rw [hstatements]
        exact seen_brought hdeps _ hf hfind
      · exact (hfinished b (hmem b hb hbd) hbd ih).includes hstep

end Resolve

end Scad
